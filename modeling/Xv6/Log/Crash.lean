import Xv6.Log.Store

/-!
Crash atomicity of `commit`. A crash keeps the disk that some prefix of the
issued writes produced and loses the cache; recovery runs on that disk and may
itself be cut short any number of times.
-/

namespace Xv6.Log

open ByteSeq WriteSeq

/-- The block writes `commit` issues, in order. -/
def commitIssued (lg : Log) (s : Store) : List (Nat × Block) :=
  ((commit storeOps lg).run { s with writes := [] }).2.writes

/-- The block writes `recover_from_log` issues on a freshly booted machine. -/
def recoverIssued (lg : Log) (d : Nat → Block) : List (Nat × Block) :=
  ((recoverFromLog storeOps lg).run (boot d)).2.writes

/-- `Recovers lg d d'`: booting on disk `d` and running `recover_from_log`,
with any number of crashes in between, ends with disk `d'`. -/
inductive Recovers (lg : Log) : (Nat → Block) → (Nat → Block) → Prop where
  | complete (d : Nat → Block) :
      Recovers lg d ((recoverFromLog storeOps lg).run (boot d)).2.disk
  | crash (d d' : Nat → Block) (k : Nat) :
      Recovers lg (applyWrites d ((recoverIssued lg d).take k)) d' → Recovers lg d d'

/-- The disk the transaction stands for: every logged home block has its cached
contents, every other block is as it was. -/
def committed (lg : Log) (s : Store) (b : Nat) : Block :=
  if ∃ t < lg.lh.n.toNat, lg.lh.block t = b then s.mem b else s.disk b

/-- The log is empty and the blocks outside it are those of `target`. -/
def Settled (lg : Log) (target d : Nat → Block) : Prop :=
  headN (d lg.start) = 0 ∧ ∀ b, ¬ InLog lg b → d b = target b

/-- The header is on disk with all its copies; each home block has either its
old or its new contents. -/
structure Pending (lg : Log) (s : Store) (d : Nat → Block) : Prop where
  head : headN (d lg.start) = lg.lh.n
  blocks : ∀ t < lg.lh.n.toNat, headBlock (d lg.start) t = lg.lh.block t
  copies : ∀ t < lg.lh.n.toNat, d (slot lg t) = s.mem (lg.lh.block t)
  homes : ∀ t < lg.lh.n.toNat, d (lg.lh.block t) = s.disk (lg.lh.block t) ∨
    d (lg.lh.block t) = s.mem (lg.lh.block t)
  others : ∀ b, ¬ InLog lg b → (∀ t < lg.lh.n.toNat, lg.lh.block t ≠ b) → d b = s.disk b

section Recovery

variable {lg : Log} {s : Store} {d d' target : Nat → Block}

theorem headN_cleared (hb : Block) : headN (hb.setNum 4 0 0) = 0 := by
  rw [headN, Bytes.num_setNum_self _ _ (by simp [BSIZE])]
  simp [toSigned]

theorem headOk_of_settled (hsize : 1 ≤ lg.size) (h : Settled lg target d) :
    HeadOk lg (d lg.start) := by
  refine ⟨by rw [h.1]; omega, ?_⟩
  intro i hi
  rw [h.1] at hi
  simp at hi

theorem headOk_of_pending (htx : Transaction lg) (h : Pending lg s d) :
    HeadOk lg (d lg.start) := by
  refine ⟨by rw [h.head]; exact htx.room, ?_⟩
  intro i hi
  rw [h.head] at hi
  rw [h.blocks i hi]
  exact htx.outside i hi

theorem recoverIssued_eq (hsize : 1 ≤ lg.size) (h : HeadOk lg (d lg.start)) :
    recoverIssued lg d = recoverWrites lg d := by
  rw [recoverIssued, recoverFromLog_run lg d hsize h]
  simp [Store.after, boot]

theorem recover_disk_eq (hsize : 1 ≤ lg.size) (h : HeadOk lg (d lg.start)) :
    ((recoverFromLog storeOps lg).run (boot d)).2.disk =
      applyWrites d (recoverWrites lg d) := by
  rw [recoverFromLog_run lg d hsize h]
  rfl

/-- With an empty log, recovery only writes the cleared header again. -/
theorem settled_recoverWrites_take (hsize : 1 ≤ lg.size) (h : Settled lg target d)
    (k : Nat) : Settled lg target (applyWrites d ((recoverWrites lg d).take k)) := by
  have hwrites : recoverWrites lg d = [(lg.start, (d lg.start).setNum 4 0 0)] := by
    simp [recoverWrites, h.1, loopWrites]
  rw [hwrites]
  cases k with
  | zero => exact h
  | succ k =>
    simp only [List.take_succ_cons, List.take_nil]
    refine ⟨?_, ?_⟩
    · simp [applyWrites, headN_cleared]
    · intro b hb
      have hne : b ≠ lg.start := by
        rintro rfl
        exact hb (start_inLog hsize)
      simp only [applyWrites, List.foldl_cons, List.foldl_nil]
      rw [Function.update_of_ne hne]
      exact h.2 b hb

theorem recovers_settled (hsize : 1 ≤ lg.size) (hrec : Recovers lg d d')
    (h : Settled lg target d) : Settled lg target d' := by
  induction hrec with
  | complete d =>
    rw [recover_disk_eq hsize (headOk_of_settled hsize h)]
    simpa using settled_recoverWrites_take hsize h (recoverWrites lg d).length
  | crash d d' k _ ih =>
    apply ih
    rw [recoverIssued_eq hsize (headOk_of_settled hsize h)]
    exact settled_recoverWrites_take hsize h k

/-- The copies a committed header points to are exactly the cached blocks, so
what recovery writes does not depend on how far the installation had got. -/
theorem recoverWrites_of_pending (h : Pending lg s d) :
    recoverWrites lg d =
      loopWrites lg.lh.block (fun t => s.mem (lg.lh.block t)) lg.lh.n.toNat ++
        [(lg.start, (d lg.start).setNum 4 0 0)] := by
  rw [recoverWrites, h.head]
  congr 1
  apply List.map_congr_left
  intro t ht
  have ht' := List.mem_range.mp ht
  simp only [h.blocks t ht', h.copies t ht']

/-- Installing any number of home blocks keeps the transaction pending. -/
theorem pending_install (htx : Transaction lg) (h : Pending lg s d) (k : Nat)
    (hk : k ≤ lg.lh.n.toNat) :
    Pending lg s (applyWrites d
      (loopWrites lg.lh.block (fun t => s.mem (lg.lh.block t)) k)) := by
  have hsize := htx.one_le_size
  have hlog : ∀ b, InLog lg b → applyWrites d
      (loopWrites lg.lh.block (fun t => s.mem (lg.lh.block t)) k) b = d b := by
    intro b hb
    apply applyWrites_loop_of_ne
    rintro t ht rfl
    exact htx.outside t (by omega) hb
  refine ⟨?_, ?_, ?_, ?_, ?_⟩
  · rw [hlog _ (start_inLog hsize)]
    exact h.head
  · rw [hlog _ (start_inLog hsize)]
    exact h.blocks
  · intro t ht
    rw [hlog _ (slot_inLog htx.room ht)]
    exact h.copies t ht
  · intro t ht
    by_cases htk : t < k
    · right
      apply applyWrites_loop_of_lt _ lg.lh.block _ htk
      intro i hi j hj
      exact htx.distinct i (by omega) j (by omega)
    · rw [applyWrites_loop_of_ne]
      · exact h.homes t ht
      · intro i hi heq
        have := htx.distinct i (by omega) t ht heq
        omega
  · intro b hb hne
    rw [applyWrites_loop_of_ne _ _ _ (fun t ht => hne t (by omega))]
    exact h.others b hb hne

/-- Installing every home block and clearing the header settles the disk. -/
theorem settled_of_installed (htx : Transaction lg) (h : Pending lg s d) (hb : Block)
    (hclear : headN hb = 0) :
    Settled lg (committed lg s) (applyWrites d
      (loopWrites lg.lh.block (fun t => s.mem (lg.lh.block t)) lg.lh.n.toNat ++
        [(lg.start, hb)])) := by
  have hsize := htx.one_le_size
  rw [applyWrites_concat]
  refine ⟨by simpa using hclear, ?_⟩
  intro b hout
  have hne : b ≠ lg.start := by
    rintro rfl
    exact hout (start_inLog hsize)
  rw [Function.update_of_ne hne, committed]
  by_cases hhome : ∃ t < lg.lh.n.toNat, lg.lh.block t = b
  · obtain ⟨t, ht, rfl⟩ := hhome
    rw [if_pos ⟨t, ht, rfl⟩]
    exact applyWrites_loop_of_lt _ lg.lh.block _ ht htx.distinct
  · rw [if_neg hhome]
    have hnot : ∀ t < lg.lh.n.toNat, lg.lh.block t ≠ b :=
      fun t ht heq => hhome ⟨t, ht, heq⟩
    rw [applyWrites_loop_of_ne _ _ _ hnot]
    exact h.others b hout hnot

theorem recovers_pending (htx : Transaction lg) (hrec : Recovers lg d d')
    (h : Pending lg s d) : Settled lg (committed lg s) d' := by
  have hsize := htx.one_le_size
  induction hrec with
  | complete d =>
    rw [recover_disk_eq hsize (headOk_of_pending htx h), recoverWrites_of_pending h]
    exact settled_of_installed htx h _ (headN_cleared _)
  | crash d d' k hrest ih =>
    rw [recoverIssued_eq hsize (headOk_of_pending htx h),
      recoverWrites_of_pending h] at hrest ih
    by_cases hk : k ≤ lg.lh.n.toNat
    · apply ih
      rw [List.take_append_of_le_length (by simpa using hk), take_loopWrites,
        min_eq_left hk]
      exact pending_install htx h k hk
    · -- the interrupted run had already written everything
      rw [List.take_of_length_le (by simp; omega)] at hrest
      exact recovers_settled hsize hrest
        (settled_of_installed htx h _ (headN_cleared _))

end Recovery

section Commit

variable {lg : Log} {s : Store}

theorem commitIssued_eq (htx : Transaction lg) :
    commitIssued lg s = commitWrites lg s.mem := by
  rw [commitIssued, commit_run lg _ htx]
  simp [Store.after]

/-- Before the header write only log copies are written, so the old header,
and with it the old state, survives. -/
theorem settled_of_copies (htx : Transaction lg) (hclean : headN (s.disk lg.start) = 0)
    (k : Nat) (hk : k ≤ lg.lh.n.toNat) :
    Settled lg s.disk (applyWrites s.disk
      (loopWrites (slot lg) (fun t => s.mem (lg.lh.block t)) k)) := by
  refine ⟨?_, ?_⟩
  · rw [applyWrites_loop_of_ne]
    · exact hclean
    · intro t _ heq
      unfold slot at heq
      omega
  · intro b hb
    apply applyWrites_loop_of_ne
    rintro t ht rfl
    exact hb (slot_inLog htx.room (by omega))

/-- The header write is the commit point. -/
theorem pending_of_header (htx : Transaction lg) :
    Pending lg s (applyWrites s.disk
      (loopWrites (slot lg) (fun t => s.mem (lg.lh.block t)) lg.lh.n.toNat ++
        [(lg.start, fillHead lg.lh (s.mem lg.start))])) := by
  have hsize := htx.one_le_size
  have hout : ∀ b, ¬ InLog lg b → applyWrites s.disk
      (loopWrites (slot lg) (fun t => s.mem (lg.lh.block t)) lg.lh.n.toNat ++
        [(lg.start, fillHead lg.lh (s.mem lg.start))]) b = s.disk b := by
    intro b hb
    have hne : b ≠ lg.start := by
      rintro rfl
      exact hb (start_inLog hsize)
    rw [applyWrites_concat, Function.update_of_ne hne]
    apply applyWrites_loop_of_ne
    rintro t ht rfl
    exact hb (slot_inLog htx.room ht)
  refine ⟨?_, ?_, ?_, ?_, ?_⟩
  · rw [applyWrites_concat, Function.update_self]
    exact headN_fillHead _ _ (by have := htx.pos; omega) htx.fits
  · intro t ht
    rw [applyWrites_concat, Function.update_self, headBlock_fillHead _ _ htx.fits t ht,
      Nat.mod_eq_of_lt (htx.word t ht)]
  · intro t ht
    have hne : slot lg t ≠ lg.start := by unfold slot; omega
    rw [applyWrites_concat, Function.update_of_ne hne]
    apply applyWrites_loop_of_lt _ (slot lg) _ ht
    intro i _ j _ hij
    unfold slot at hij
    omega
  · intro t ht
    exact Or.inl (hout _ (htx.outside t ht))
  · intro b hb _
    exact hout b hb

/-- The header reached the disk exactly when the crash came after the last log
copy and at least one more write. -/
theorem header_mem_take_iff (htx : Transaction lg) (k : Nat) :
    (∃ hb, (lg.start, hb) ∈ (commitWrites lg s.mem).take k) ↔ lg.lh.n.toNat < k := by
  have hsize := htx.one_le_size
  let copies := loopWrites (slot lg) (fun t => s.mem (lg.lh.block t)) lg.lh.n.toNat
  constructor
  · rintro ⟨hb, hmem⟩
    by_contra hk
    have htake : (commitWrites lg s.mem).take k = copies.take k := by
      simp only [commitWrites, List.append_assoc]
      rw [List.take_append_of_le_length (by simp; omega)]
    rw [htake] at hmem
    obtain ⟨t, _, heq⟩ := mem_loopWrites.mp (List.mem_of_mem_take hmem)
    have := congrArg Prod.fst heq
    simp only [slot] at this
    omega
  · intro hk
    refine ⟨fillHead lg.lh (s.mem lg.start), ?_⟩
    rw [List.mem_take_iff_getElem]
    refine ⟨lg.lh.n.toNat, ?_, ?_⟩
    · simp [commitWrites]
      omega
    · simp [commitWrites, List.getElem_append_right]

/-- **Crash atomicity.** Whatever prefix of the writes of `commit` reached a
disk whose log was empty, and however often recovery is interrupted, the final
disk has an empty log and, outside the log region, is the transaction's disk if
the header write got through and the old disk otherwise. -/
theorem commit_crash_atomic (lg : Log) (s : Store) (hclean : headN (s.disk lg.start) = 0)
    (htx : Transaction lg) (k : Nat) (d' : Nat → Block)
    (hrec : Recovers lg (applyWrites s.disk ((commitIssued lg s).take k)) d') :
    headN (d' lg.start) = 0 ∧
      ((∃ hb, (lg.start, hb) ∈ (commitIssued lg s).take k) →
        ∀ b, ¬ InLog lg b → d' b = committed lg s b) ∧
      ((¬ ∃ hb, (lg.start, hb) ∈ (commitIssued lg s).take k) →
        ∀ b, ¬ InLog lg b → d' b = s.disk b) := by
  have hsize := htx.one_le_size
  let copies := loopWrites (slot lg) (fun t => s.mem (lg.lh.block t)) lg.lh.n.toNat
  let homes := loopWrites lg.lh.block (fun t => s.mem (lg.lh.block t)) lg.lh.n.toNat
  let head := (lg.start, fillHead lg.lh (s.mem lg.start))
  let tail := (lg.start, fillHead lg.clear.lh (fillHead lg.lh (s.mem lg.start)))
  have hissued : commitWrites lg s.mem = (copies ++ [head]) ++ (homes ++ [tail]) := by
    simp only [commitWrites, copies, homes, head, tail, List.append_assoc]
  rw [commitIssued_eq htx] at hrec ⊢
  rw [header_mem_take_iff htx k]
  by_cases hk : lg.lh.n.toNat < k
  · -- committed: every later crash point leaves the transaction pending or installed
    have hlen : (copies ++ [head]).length = lg.lh.n.toNat + 1 := by simp [copies]
    have hpend : Pending lg s (applyWrites s.disk (copies ++ [head])) :=
      pending_of_header htx
    have hfinal : Settled lg (committed lg s) d' := by
      rw [hissued, List.take_append, List.take_of_length_le (by omega),
        applyWrites_append, hlen] at hrec
      by_cases hfull : k - (lg.lh.n.toNat + 1) ≤ lg.lh.n.toNat
      · rw [List.take_append_of_le_length (by simpa [homes] using hfull),
          take_loopWrites, min_eq_left hfull] at hrec
        exact recovers_pending htx hrec (pending_install htx hpend _ hfull)
      · rw [List.take_of_length_le (by simp [homes]; omega)] at hrec
        apply recovers_settled hsize hrec
        apply settled_of_installed htx hpend
        rw [fillHead_of_n_eq_zero _ _ (clear_n lg)]
        exact headN_cleared _
    exact ⟨hfinal.1, fun _ => hfinal.2, fun hnot => absurd hk hnot⟩
  · have htake : (commitWrites lg s.mem).take k =
        loopWrites (slot lg) (fun t => s.mem (lg.lh.block t)) k := by
      rw [hissued, List.append_assoc, List.take_append_of_le_length (by simp [copies]; omega),
        take_loopWrites, min_eq_left (by omega)]
    rw [htake] at hrec
    have hfinal : Settled lg s.disk d' :=
      recovers_settled hsize hrec (settled_of_copies htx hclean k (by omega))
    exact ⟨hfinal.1, fun hreached => absurd hreached hk, fun _ => hfinal.2⟩

end Commit

/-- One logged block, number 100, in the log `mkfs` lays out. -/
def oneBlockLog : Log := ⟨2, 30, 1, ⟨1, fun _ => 100⟩⟩

/-- An all-zero disk whose cache holds new contents for every block. -/
def oneBlockStore : Store := ⟨fun _ => Bytes.zero, fun _ => Bytes.zero.setNum 1 0 7, []⟩

theorem oneBlockLog_transaction : Transaction oneBlockLog := by
  refine ⟨by decide, by decide, by decide, ?_, ?_, ?_⟩
  · intro i hi j hj _
    simp only [oneBlockLog] at hi hj
    omega
  · intro i _
    simp [InLog, oneBlockLog]
  · intro i _
    simp [oneBlockLog]

/-- A crash right after the header write: recovery installs the new contents. -/
theorem commit_crash_atomic_after_header :
    ((recoverFromLog storeOps oneBlockLog).run (boot (applyWrites oneBlockStore.disk
      ((commitIssued oneBlockLog oneBlockStore).take 2)))).2.disk 100 =
      Bytes.zero.setNum 1 0 7 := by
  have hreached : ∃ hb, (oneBlockLog.start, hb) ∈
      (commitIssued oneBlockLog oneBlockStore).take 2 := by
    rw [commitIssued_eq oneBlockLog_transaction]
    exact (header_mem_take_iff oneBlockLog_transaction 2).mpr (by decide)
  have hclean : headN (oneBlockStore.disk oneBlockLog.start) = 0 := by
    simp [headN, oneBlockStore, toSigned]
  have hout : ¬ InLog oneBlockLog 100 := by simp [InLog, oneBlockLog]
  have hatomic := commit_crash_atomic oneBlockLog oneBlockStore hclean
    oneBlockLog_transaction 2 _ (Recovers.complete _)
  rw [hatomic.2.1 hreached 100 hout, committed, if_pos ⟨0, by decide, rfl⟩]
  rfl

end Xv6.Log
