import Xv6.Bio.Cache

/-!
The functions of `log.c` do on the buffer cache what they do on the plain
block store, and every sequence of cache operations returns the latest
contents of each block.
-/

namespace Xv6.Bio

open Prog Log WriteSeq

/-- No buffer is held. -/
def idle : Fin NBUF → Option Nat := fun _ => none

/-- From any cache that presents a store, `x` does what `y` does on the store,
unless it stops for a reason in `why`. -/
def Simulates {α : Type} (e : Env) (why : Fault → Prop) (x : BioM α) (y : StateM Store α) :
    Prop :=
  ∀ st s, Sim e idle ∅ st s →
    wp x (fun a s' => a = (y.run st).1 ∧ Sim e idle ∅ (y.run st).2 s') (Stopped why) s

section Simulation

variable {e : Env} {why : Fault → Prop} {α β : Type}

theorem Simulates.pure (a : α) : Simulates e why (Pure.pure a) (Pure.pure a) :=
  fun _ _ h => ⟨rfl, h⟩

theorem Simulates.bind {x : BioM α} {y : StateM Store α} {f : α → BioM β}
    {g : α → StateM Store β} (hx : Simulates e why x y)
    (hf : ∀ a, Simulates e why (f a) (g a)) :
    Simulates e why (x >>= f) (y >>= g) := by
  intro st s h
  refine wp_seq (hx st s h) ?_
  rintro a s' ⟨rfl, hs'⟩
  exact hf _ _ s' hs'

theorem Simulates.forTail {x : Nat → BioM Unit} {y : Nat → StateM Store Unit} (k : Nat)
    (h : ∀ t < k, Simulates e why (x t) (y t)) :
    Simulates e why (forTail x k) (forTail y k) := by
  induction k with
  | zero => exact Simulates.pure ()
  | succ k ih =>
    exact Simulates.bind (ih fun t ht => h t (by omega)) (fun _ => h k (by omega))

variable {st : Store} {s : Bio}

/-- The part that `write_log` and `install_trans` share: copy the held buffer
`i` into the held buffer `j`, write that one and release both. -/
private theorem copy_spec {held : Fin NBUF → Option Nat} {i j : Fin NBUF} {src dst : Nat}
    (h : Sim e held ∅ st s) (hi : held i = some src) (hj : held j = some dst) (hij : i ≠ j) : wp (do
        let d ← (cacheOps e.pid).data i
        (cacheOps e.pid).setData j d
        bwrite e.pid j
        brelse e.pid i
        brelse e.pid j)
      (fun _ s' => Sim e (Function.update (Function.update held i none) j none) ∅
        (st.after [(dst, st.mem src)]) s')
      (fun _ _ => False) s := by
  refine wp_seq (data_spec h hi) ?_
  rintro d s₁ ⟨rfl, rfl⟩
  refine wp_seq (setData_spec h hj _) ?_
  intro _ s₂ h₂
  refine wp_seq (bwrite_spec h₂ hj) ?_
  intro _ s₃ h₃
  have hmod : (insert j (∅ : Finset (Fin NBUF))).erase j = ∅ := by simp
  rw [hmod] at h₃
  refine wp_seq (brelse_spec h₃ hi (by simp)) ?_
  intro _ s₄ h₄
  have hj' : Function.update held i none j = some dst := by
    rw [Function.update_of_ne hij.symm, hj]
  refine wp_mono (brelse_spec h₄ hj' (by simp)) ?_ (fun _ _ hf => hf)
  intro _ s₅ h₅
  simpa [Store.after, applyWrites] using h₅

/-- Buffer `i` is held for block `a`, and buffer `j` for block `b`. -/
def holding (i j : Fin NBUF) (a b : Nat) : Fin NBUF → Option Nat :=
  Function.update (Function.update idle i (some a)) j (some b)

section Holding

variable {i j : Fin NBUF} {a b : Nat}

theorem holding_left (hij : i ≠ j) : holding i j a b i = some a := by simp [holding, hij]

theorem holding_right : holding i j a b j = some b := by simp [holding]

theorem holding_released :
    Function.update (Function.update (holding i j a b) i none) j none = idle := by
  funext k
  simp only [Function.update_apply, holding, idle]
  split_ifs <;> rfl

theorem update_idle_ne (hab : a ≠ b) (k : Fin NBUF) :
    Function.update idle i (some a) k ≠ some b := by
  rw [Function.update_apply]
  split
  · simpa using hab
  · simp [idle]

end Holding

/-- The reasons for which `commit` may stop, if `off` says whether the log lies
off the disk. -/
def CommitStops (off : Prop) (err : Fault) : Prop :=
  err = .bgetNoBuffers ∨ (err = .iderwOutOfRange ∧ off)

variable {off : Prop}

private theorem bread_at {held : Fin NBUF → Option Nat} {b : Nat} (h : Sim e held ∅ st s)
    (hfree : ∀ i, held i ≠ some b) (hrange : ¬ off → b < e.disksize) : wp (bread e.pid 1 b)
      (fun i s' => held i = none ∧ Sim e (Function.update held i (some b)) ∅ st s')
      (Stopped (CommitStops off)) s := by
  refine wp_mono (bread_spec h hfree) (fun _ _ hq => hq) ?_
  rintro err s' ⟨hhist, hwhy⟩
  refine ⟨hhist, hwhy.imp_right ?_⟩
  rintro ⟨herr, hle⟩
  refine ⟨herr, ?_⟩
  by_contra hoff
  exact absurd (hrange hoff) (by omega)

/-- Hold the two blocks `a` and `b`, in this order. -/
private theorem bread_two {a b : Nat} {f : Fin NBUF → Fin NBUF → BioM α} {Q : α → Bio → Prop}
    (h : Sim e idle ∅ st s) (hab : a ≠ b) (ha : ¬ off → a < e.disksize)
    (hb : ¬ off → b < e.disksize)
    (hf : ∀ i j s', i ≠ j → Sim e (holding i j a b) ∅ st s' →
      wp (f i j) Q (Stopped (CommitStops off)) s') :
    wp (do
        let i ← bread e.pid 1 a
        let j ← bread e.pid 1 b
        f i j) Q (Stopped (CommitStops off)) s := by
  refine wp_seq (bread_at h (fun i => by simp [idle]) ha) ?_
  rintro i s₁ ⟨-, h₁⟩
  refine wp_seq (bread_at h₁ (update_idle_ne hab) hb) ?_
  rintro j s₂ ⟨hnone, h₂⟩
  refine hf i j s₂ ?_ h₂
  rintro rfl
  simp at hnone

section

variable (lg : Log) (t : Nat) (hdev : lg.dev = 1) (hne : slot lg t ≠ lg.lh.block t)
  (hslot : ¬ off → slot lg t < e.disksize) (hhome : lg.lh.block t < e.disksize)
include hdev hne hslot hhome

theorem writeLogOne_simulates :
    Simulates e (CommitStops off) (writeLogOne (cacheOps e.pid) lg t)
      (writeLogOne storeOps lg t) := by
  intro st s h
  rw [writeLogOne_run, writeLogOne, hdev]
  refine bread_two h hne hslot (fun _ => hhome) ?_
  intro i j s' hij h'
  refine wp_mono (copy_spec h' holding_right (holding_left hij) hij.symm) ?_ fun _ _ => False.elim
  intro _ s'' h''
  rw [Function.update_comm hij.symm, holding_released] at h''
  exact ⟨rfl, h''⟩

theorem installOne_simulates :
    Simulates e (CommitStops off) (installOne (cacheOps e.pid) lg t)
      (installOne storeOps lg t) := by
  intro st s h
  rw [installOne_run, installOne, hdev]
  refine bread_two h hne hslot (fun _ => hhome) ?_
  intro i j s' hij h'
  refine wp_mono (copy_spec h' (holding_left hij) holding_right hij) ?_ fun _ _ => False.elim
  intro _ s'' h''
  rw [holding_released] at h''
  exact ⟨rfl, h''⟩

end

theorem writeHead_simulates (lg : Log) (hdev : lg.dev = 1)
    (hstart : ¬ off → lg.start < e.disksize) :
    Simulates e (CommitStops off) (writeHead (cacheOps e.pid) lg) (writeHead storeOps lg) := by
  intro st s h
  rw [writeHead_run, writeHead, hdev]
  refine wp_seq (bread_at h (fun i => by simp [idle]) hstart) ?_
  rintro i s₁ ⟨-, h₁⟩
  have hi : Function.update idle i (some lg.start) i = some lg.start := by simp
  refine wp_mono (Q := fun _ s' => Sim e (Function.update (Function.update idle i
    (some lg.start)) i none) ∅ (st.after [(lg.start, fillHead lg.lh (st.mem lg.start))]) s')
    (E := fun _ _ => False) ?_ ?_ (fun _ _ hf => hf.elim)
  · refine wp_seq (data_spec h₁ hi) ?_
    rintro d s₂ ⟨rfl, rfl⟩
    refine wp_seq (setData_spec h₁ hi _) ?_
    intro _ s₃ h₃
    refine wp_seq (bwrite_spec h₃ hi) ?_
    intro _ s₄ h₄
    rw [show (insert i (∅ : Finset (Fin NBUF))).erase i = ∅ by simp] at h₄
    refine wp_mono (brelse_spec h₄ hi (by simp)) ?_ (fun _ _ hf => hf)
    intro _ s₅ h₅
    simpa [Store.after, applyWrites] using h₅
  · intro _ s' h'
    refine ⟨rfl, ?_⟩
    rwa [Function.update_idem, show Function.update idle i none = idle from
      Function.update_eq_self i idle] at h'

/-- `commit` on the cache is `commit` on the block store. -/
theorem commit_simulates (lg : Log) (htrans : Transaction lg) (hdev : lg.dev = 1)
    (hhome : ∀ t < lg.lh.n.toNat, lg.lh.block t < e.disksize)
    (hregion : ¬ off → lg.start + lg.size ≤ e.disksize) :
    Simulates e (CommitStops off) (commit (cacheOps e.pid) lg) (commit storeOps lg) := by
  have hpos : 0 < lg.lh.n := by have := htrans.pos; omega
  have hroom := htrans.room
  have hne : ∀ t < lg.lh.n.toNat, slot lg t ≠ lg.lh.block t := by
    intro t ht heq
    exact htrans.outside t ht (heq ▸ slot_inLog hroom ht)
  have hslot : ∀ t < lg.lh.n.toNat, ¬ off → slot lg t < e.disksize := by
    intro t ht hon
    have := hregion hon
    unfold slot
    omega
  have hstart : ¬ off → lg.start < e.disksize := by
    intro hon
    have := hregion hon
    omega
  rw [commit, commit, if_pos hpos, if_pos hpos]
  refine Simulates.bind (Simulates.forTail _ fun t ht => ?_) (fun _ => ?_)
  · exact writeLogOne_simulates lg t hdev (hne t ht) (hslot t ht) (hhome t ht)
  refine Simulates.bind (writeHead_simulates lg hdev hstart) (fun _ => ?_)
  refine Simulates.bind (Simulates.forTail _ fun t ht => ?_) (fun _ => ?_)
  · exact installOne_simulates lg t hdev (hne t ht) (hslot t ht) (hhome t ht)
  exact Simulates.bind (writeHead_simulates lg.clear hdev hstart)
    (fun _ => Simulates.pure _)

/-- A log on another disk cannot be committed. -/
theorem commit_refused (lg : Log) (hpos : 0 < lg.lh.n) (hdev : lg.dev ≠ 1) (h : Sim e idle ∅ st s) :
    wp (commit (cacheOps e.pid) lg) (fun _ _ => False)
      (Stopped fun err => err = .bgetNoBuffers ∨ err = .iderwNotDisk1) s := by
  have hfirst (k : Nat) : wp (forTail (writeLogOne (cacheOps e.pid) lg) (k + 1))
      (fun _ _ => False)
      (Stopped fun err => err = .bgetNoBuffers ∨ err = .iderwNotDisk1) s := by
    induction k with
    | zero =>
      refine wp_seq (Q := fun _ s' => s' = s) rfl ?_
      rintro - s' rfl
      exact wp_stops (bread_refused h hdev (Or.inr (by omega))) (fun _ _ he => he)
    | succ k ih => exact wp_stops ih (fun _ _ he => he)
  obtain ⟨k, hk⟩ : ∃ k, lg.lh.n.toNat = k + 1 := ⟨lg.lh.n.toNat - 1, by omega⟩
  rw [commit, if_pos hpos, writeLog, hk]
  exact wp_stops (hfirst k) (fun _ _ he => he)

end Simulation

end Xv6.Bio
