import Xv6.Fs.Disk

/-!
How often `writei` calls `log_write`, and when there is room in the log for what
it logs.
-/

namespace Xv6.Fs

open Prog

variable {P α β : Type} {x : FsM P α} {k l n : Nat}

/-- At most `k` calls of `log_write`. -/
def Logs (k : Nat) (x : FsM P α) : Prop := ∀ n c, c.logged.length ≤ n →
  wp x (fun _ c' => c'.logged.length ≤ n + k) (fun _ c' => c'.logged.length ≤ n + k) c

namespace Logs

theorem length (h : Logs k x) (c : FsState P) :
    (x c).2.logged.length ≤ c.logged.length + k := by
  have hrun := h _ c (Nat.le_refl _)
  unfold wp at hrun
  generalize x c = r at hrun ⊢
  obtain ⟨_ | _, c'⟩ := r <;> exact hrun

theorem mono (h : Logs k x) (hkl : k ≤ l) : Logs l x := fun n c hc =>
  wp_mono (h n c hc) (fun _ _ h' => by omega) (fun _ _ h' => by omega)

protected theorem pure (a : α) : Logs k (pure a : FsM P α) := fun n _ hc =>
  hc.trans (Nat.le_add_right n k)

protected theorem fail (e : Panic) : Logs k (fail e : FsM P α) := fun n _ hc =>
  hc.trans (Nat.le_add_right n k)

protected theorem gets (f : FsState P → α) : Logs 0 (gets f) := fun _ _ hc => hc

protected theorem modify {f : FsState P → FsState P} (h : ∀ c, (f c).logged = c.logged) :
    Logs 0 (modify f) := by
  intro n c hc
  change (f c).logged.length ≤ n
  rwa [h]

protected theorem ite {p : Prop} [Decidable p] {y : FsM P α} (hx : Logs k x) (hy : Logs k y) :
    Logs k (if p then x else y) := by
  split
  · exact hx
  · exact hy

protected theorem panicIf {p : Prop} [Decidable p] {e : Panic} : Logs (P := P) 0 (panicIf p e) :=
  .ite (.fail e) (.pure ())

protected theorem bind {f : α → FsM P β} (hx : Logs k x) (hf : ∀ a, Logs l (f a))
    (hn : k + l = n) : Logs n (x >>= f) := by
  intro b c hc
  refine wp_bind.mpr (wp_mono (hx b c hc) (fun a c' h' => ?_) (fun _ _ h' => by omega))
  rw [← hn, ← Nat.add_assoc]
  exact hf a (b + k) c' h'

/-- A first command that logs nothing. -/
theorem skip {f : α → FsM P β} (hx : Logs 0 x) (hf : ∀ a, Logs l (f a)) : Logs l (x >>= f) :=
  .bind hx hf (Nat.zero_add l)

end Logs

theorem logs_bread (dev b : Nat) : Logs (P := P) 0 (bread dev b) :=
  .skip (.gets _) fun _ => .skip .panicIf fun _ => .skip .panicIf fun _ =>
    .skip (.modify fun _ => rfl) fun _ => .pure _

theorem logs_brelse (b : Nat) : Logs (P := P) 0 (brelse b) := .modify fun _ => rfl

theorem logs_logWrite (b : Nat) (d : Block) : Logs (P := P) 1 (logWrite b d) := by
  refine .skip (.gets _) fun _ => .skip .panicIf fun _ => ?_
  intro n c hc
  change (c.logged ++ [b]).length ≤ n + 1
  rw [List.length_append, List.length_singleton]
  omega

theorem logs_balloc (dev : Nat) : Logs (P := P) 2 (balloc dev) := by
  intro n c hc
  unfold balloc
  simp only [wp_bind, wp_gets]
  -- only the round that finds a block logs anything
  refine wp_first _ _ (fun _ c' => c'.logged.length ≤ n) hc (fun i c' _ _ hc' => ?_) ?_
  · rw [wp_bind]
    refine wp_mono (logs_bread _ _ n c' hc') (fun d c₁ h₁ => ?_) (fun _ _ h₁ => by omega)
    split
    · next bi _ =>
        have htake : Logs (P := P) 2 (do
            logWrite (c.sb.bblock (BPB * i)) (markBit d bi)
            brelse (c.sb.bblock (BPB * i))
            bzero dev (BPB * i + bi)) :=
          .bind (logs_logWrite _ _) (fun _ => .skip (logs_brelse _) fun _ =>
            .skip (logs_bread _ _) fun _ => .bind (logs_logWrite _ _) (fun _ => logs_brelse _) rfl)
            rfl
        have hrun := htake n c₁ h₁
        simp only [wp_bind] at hrun ⊢
        exact hrun
    · exact h₁
  · exact fun c' hc' => Nat.le_add_right_of_le hc'

theorem logs_iupdate (ip : Ip) : Logs (P := P) 1 (iupdate ip) :=
  .skip (.gets _) fun _ => .skip (.gets _) fun _ => .skip (.gets _) fun _ =>
    .skip (logs_bread _ _) fun _ => .bind (logs_logWrite _ _) (fun _ => logs_brelse _) rfl

theorem logs_bmap (ip : Ip) (bn : Nat) : Logs (P := P) 5 (bmap ip bn) := by
  have halloc (dev : Nat) (f : Nat → Dinode) : Logs (P := P) 2 (do
      let b ← balloc dev
      setCopy ip (f b)
      return b) :=
    .bind (logs_balloc dev) (fun _ => .skip (.modify fun _ => rfl) fun _ => .pure (k := 0) _) rfl
  refine .skip (.gets _) fun e => .skip (.gets _) fun di =>
    .ite (.ite ((halloc _ _).mono (by decide)) (.pure _)) (.ite ?_ (.fail _))
  refine .bind (.ite (halloc _ _) (.pure _)) (fun table => .skip (logs_bread _ _) fun d =>
    .ite ?_ ?_) (rfl : 2 + 3 = 5)
  · exact .bind (logs_balloc _) (fun _ => .bind (logs_logWrite _ _) (fun _ =>
      .skip (logs_brelse _) fun _ => .pure (k := 0) _) rfl) rfl
  · exact .skip (logs_brelse _) fun _ => .pure _

/-- The blocks that `n` bytes at `off` reach into. -/
def reached (off n : Nat) : Nat := (off + n + (BSIZE - 1)) / BSIZE - off / BSIZE

theorem logs_writeLoop (ip : Ip) (src : Nat → UInt8) (n rounds tot off : Nat) :
    Logs (P := P) (if tot < n then 6 * reached off (n - tot) else 0)
      (writeLoop ip src n rounds tot off) := by
  induction rounds generalizing tot off with
  | zero => exact .pure _
  | succ rounds ih =>
    unfold writeLoop
    split
    · generalize hm : min (n - tot) (BSIZE - off % BSIZE) = m
      have hone : 5 + (1 + if tot + m < n then 6 * reached (off + m) (n - (tot + m)) else 0) ≤
          6 * reached off (n - tot) := by
        unfold reached BSIZE at *
        split <;> omega
      refine Logs.mono ?_ hone
      exact .skip (.gets _) fun e => .bind (logs_bmap ip _) (fun b => .skip (logs_bread _ _)
        fun d => .bind (logs_logWrite _ _) (fun _ => .skip (logs_brelse b) fun _ => ih _ _) rfl) rfl
    · exact .pure _

/-- Six calls for every block, and one for the inode. -/
theorem logs_writeInode (ip : Ip) (src : Nat → UInt8) (off n : Nat) :
    Logs (P := P) (6 * reached off n + 1) (writeInode ip src off n) := by
  have hloop : Logs (P := P) (6 * reached off n) (writeLoop ip src n n 0 off) := by
    refine (logs_writeLoop ip src n n 0 off).mono ?_
    split
    · rw [Nat.sub_zero]
    · exact Nat.zero_le _
  exact .bind hloop (fun _ => .skip (.gets _) fun _ =>
    .ite (.skip (.modify fun _ => rfl) fun _ => logs_iupdate ip) (.pure _)) rfl

/-! ### Room in the log -/

/-- The blocks that a transaction can log. -/
def Superblock.logRoom (sb : Superblock) : Nat := min LOGSIZE (sb.nlog - 1)

theorem logFits_of_length {sb : Superblock} {bs block : List Nat}
    (h : block.length + bs.length ≤ sb.logRoom) : logFits sb.nlog block bs = true := by
  induction bs generalizing block with
  | nil => rfl
  | cons b bs ih =>
    unfold Superblock.logRoom at *
    rw [List.length_cons] at h
    rw [logFits, Bool.and_eq_true, decide_eq_true_eq]
    refine ⟨by omega, ih ?_⟩
    split
    · omega
    · rw [List.length_append, List.length_singleton]
      omega

variable {c : FsState P} {Q : α → FsState P → Prop} {E : Panic → FsState P → Prop}

theorem inLog_ok {a : α} {c' : FsState P} (h : inLog x c = (.ok a, c')) :
    x c = (.ok a, c') ∧ logFits c.sb.nlog [] c'.logged = true := by
  unfold inLog at h
  split at h
  · next hfits => exact ⟨h, by rwa [h] at hfits⟩
  · cases h

/-- A run that finds the log full has logged many blocks. -/
theorem wp_inLog (h : wp x Q E c) (hle : (x c).2.logged.length ≤ c.logged.length + k) :
    wp (inLog x) Q (fun e c' => e = .tooBigTransaction ∧
      logFits c.sb.nlog [] c'.logged = false ∧ c.sb.logRoom < c.logged.length + k ∨ E e c') c := by
  unfold wp inLog at *
  by_cases hfits : logFits c.sb.nlog [] (x c).2.logged = true
  · rw [if_pos hfits]
    rcases hrun : x c with ⟨e | a, c'⟩
    · rw [hrun] at h
      exact Or.inr h
    · rw [hrun] at h
      exact h
  · have hlong : c.sb.logRoom < (x c).2.logged.length := by
      by_contra hle
      exact hfits (logFits_of_length (by simpa using hle))
    rw [if_neg hfits]
    exact Or.inl ⟨rfl, by simpa using hfits, by omega⟩

end Xv6.Fs
