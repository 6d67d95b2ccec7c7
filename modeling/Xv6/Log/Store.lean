import Xv6.Log.Basic
import Xv6.Lib.WriteSeq

/-!
A plain block store for `log.c`: the disk, the contents `bread` returns, and
the block writes issued so far. This is what the buffer cache is for (the
cache of `bio.c` is shown to behave like it in `Bio/Refine.lean`), so the
commit and the recovery are analysed here, where a crash loses the contents
and keeps the disk.
-/

namespace Xv6.Log

open ByteSeq WriteSeq

/-- `mem b` is what `bread` of block `b` returns: the cached contents, or the
disk's if the block is not cached. `writes` lists the writes in issue order. -/
structure Store where
  disk : Nat → Block
  mem : Nat → Block
  writes : List (Nat × Block)

/-- A machine that has just booted: nothing is cached. -/
def boot (d : Nat → Block) : Store := ⟨d, d, []⟩

def storeOps : BufOps (StateM Store) Nat where
  bread _ b := pure b
  data b := do return (← get).mem b
  setData b d := modify fun s => { s with mem := Function.update s.mem b d }
  bwrite b := modify fun s =>
    { s with
      disk := Function.update s.disk b (s.mem b)
      writes := s.writes ++ [(b, s.mem b)] }
  brelse _ := pure ()

/-- The store after the disk writes `ws`, each of which also put the block it
wrote into the cache. -/
def Store.after (s : Store) (ws : List (Nat × Block)) : Store :=
  { disk := applyWrites s.disk ws
    mem := applyWrites s.mem ws
    writes := s.writes ++ ws }

@[simp] theorem after_nil (s : Store) : s.after [] = s := by
  simp [Store.after]

theorem after_after (s : Store) (ws vs : List (Nat × Block)) :
    (s.after ws).after vs = s.after (ws ++ vs) := by
  simp [Store.after, applyWrites_append]

/-- Block `b` is one of the blocks of the on-disk log. -/
def InLog (lg : Log) (b : Nat) : Prop := lg.start ≤ b ∧ b < lg.start + lg.size

/-- What `log_write` leaves for `commit`: at least one and at most
`log.size - 1` distinct home blocks, none of them in the log region. The bound
`LOGSIZE` is the length of the array `lh.block`, and a block number is a
32-bit word. -/
structure Transaction (lg : Log) : Prop where
  pos : 1 ≤ lg.lh.n
  room : lg.lh.n ≤ (lg.size : Int) - 1
  fits : lg.lh.n ≤ LOGSIZE
  distinct : ∀ i < lg.lh.n.toNat, ∀ j < lg.lh.n.toNat,
    lg.lh.block i = lg.lh.block j → i = j
  outside : ∀ i < lg.lh.n.toNat, ¬ InLog lg (lg.lh.block i)
  word : ∀ i < lg.lh.n.toNat, lg.lh.block i < 2 ^ 32

theorem Transaction.one_le_size {lg : Log} (h : Transaction lg) : 1 ≤ lg.size := by
  have := h.pos
  have := h.room
  omega

/-- The log block that holds the copy of the `t`-th home block. -/
def slot (lg : Log) (t : Nat) : Nat := lg.start + t + 1

theorem slot_inLog {lg : Log} {t : Nat} (hroom : lg.lh.n ≤ (lg.size : Int) - 1)
    (ht : t < lg.lh.n.toNat) : InLog lg (slot lg t) := by
  unfold InLog slot
  omega

theorem start_inLog {lg : Log} (h : 1 ≤ lg.size) : InLog lg lg.start := by
  unfold InLog
  omega

/-! ### One run of each function -/

private theorem stateM_bind_run {σ α β : Type} (x : StateM σ α) (f : α → StateM σ β)
    (s : σ) : (x >>= f).run s = (f (x.run s).1).run (x.run s).2 := rfl

/-- `setData` and `bwrite` of one block. -/
theorem Store.after_one (s : Store) (b : Nat) (d : Block) : s.after [(b, d)] =
    { disk := Function.update s.disk b (Function.update s.mem b d b)
      mem := Function.update s.mem b d
      writes := s.writes ++ [(b, Function.update s.mem b d b)] } := by
  rw [Function.update_self]
  rfl

theorem installOne_run (lg : Log) (t : Nat) (s : Store) :
    (installOne storeOps lg t).run s =
      ((), s.after [(lg.lh.block t, s.mem (slot lg t))]) := by
  rw [Store.after_one]
  rfl

theorem writeLogOne_run (lg : Log) (t : Nat) (s : Store) :
    (writeLogOne storeOps lg t).run s =
      ((), s.after [(slot lg t, s.mem (lg.lh.block t))]) := by
  rw [Store.after_one]
  rfl

theorem writeHead_run (lg : Log) (s : Store) :
    (writeHead storeOps lg).run s =
      ((), s.after [(lg.start, fillHead lg.lh (s.mem lg.start))]) := by
  rw [Store.after_one]
  rfl

theorem readHead_run (lg : Log) (s : Store) :
    (readHead storeOps lg).run s =
      ({ lg with lh :=
          { n := headN (s.mem lg.start)
            block := fun i => if i < (headN (s.mem lg.start)).toNat
              then headBlock (s.mem lg.start) i else lg.lh.block i } }, s) := rfl

/-- A loop that copies block `src t` to block `dst t`: no iteration changes what a
later one reads. -/
theorem copyLoop_run {body : Nat → StateM Store Unit} {dst src : Nat → Nat} {n : Nat} (s : Store)
    (hbody : ∀ t s, (body t).run s = ((), s.after [(dst t, s.mem (src t))]))
    (hne : ∀ k < n, ∀ t < k, dst t ≠ src k) :
    (forTail body n).run s = ((), s.after (loopWrites dst (fun t => s.mem (src t)) n)) := by
  induction n with
  | zero => simp [forTail, loopWrites]; rfl
  | succ n ih =>
    have hread : (s.after (loopWrites dst (fun t => s.mem (src t)) n)).mem (src n) =
        s.mem (src n) := 
      applyWrites_loop_of_ne _ _ _ (hne n n.lt_succ_self)
    rw [forTail, stateM_bind_run, ih fun k hk => hne k (by omega), hbody, hread, after_after,
      loopWrites_succ]

section

variable (lg : Log) (s : Store) (hroom : lg.lh.n ≤ (lg.size : Int) - 1)
  (hout : ∀ i < lg.lh.n.toNat, ¬ InLog lg (lg.lh.block i))
include hroom hout

/-- The loop of `write_log` issues one write per logged block. -/
theorem writeLog_run :
    (writeLog storeOps lg).run s =
      ((), s.after (loopWrites (slot lg) (fun t => s.mem (lg.lh.block t)) lg.lh.n.toNat)) :=
  copyLoop_run s (writeLogOne_run lg) fun k hk _ _ heq =>
    hout k hk (heq ▸ slot_inLog hroom (by omega))

theorem installTrans_run :
    (installTrans storeOps lg).run s =
      ((), s.after (loopWrites lg.lh.block (fun t => s.mem (slot lg t)) lg.lh.n.toNat)) :=
  copyLoop_run s (installOne_run lg) fun k hk t _ heq =>
    hout t (by omega) (heq ▸ slot_inLog hroom hk)

end

/-- The writes of `commit`, phase by phase: the log copies, the header, the
home blocks and the cleared header. -/
def commitWrites (lg : Log) (mem : Nat → Block) : List (Nat × Block) :=
  loopWrites (slot lg) (fun t => mem (lg.lh.block t)) lg.lh.n.toNat ++
    [(lg.start, fillHead lg.lh (mem lg.start))] ++
    loopWrites lg.lh.block (fun t => mem (lg.lh.block t)) lg.lh.n.toNat ++
    [(lg.start, fillHead lg.clear.lh (fillHead lg.lh (mem lg.start)))]

theorem commit_run (lg : Log) (s : Store) (h : Transaction lg) :
    (commit storeOps lg).run s = (lg.clear, s.after (commitWrites lg s.mem)) := by
  have hpos : 0 < lg.lh.n := by have := h.pos; omega
  have hsize := h.one_le_size
  let copies := loopWrites (slot lg) (fun t => s.mem (lg.lh.block t)) lg.lh.n.toNat
  let head := (lg.start, fillHead lg.lh (s.mem lg.start))
  let homes := loopWrites lg.lh.block (fun t => s.mem (lg.lh.block t)) lg.lh.n.toNat
  have hslotInj : ∀ i < lg.lh.n.toNat, ∀ j < lg.lh.n.toNat,
      slot lg i = slot lg j → i = j := by
    intro i _ j _ hij
    unfold slot at hij
    omega
  have hstart : (s.after copies).mem lg.start = s.mem lg.start := by
    apply applyWrites_loop_of_ne
    intro t _ heq
    unfold slot at heq
    omega
  -- the copies the header points to are the cached home blocks
  have hcopied : loopWrites lg.lh.block
      (fun t => (s.after (copies ++ [head])).mem (slot lg t)) lg.lh.n.toNat = homes := by
    apply loopWrites_congr
    intro t ht
    change applyWrites s.mem (copies ++ [head]) (slot lg t) = _
    rw [applyWrites_concat, Function.update_of_ne (by unfold slot; simp [head]; omega)]
    exact applyWrites_loop_of_lt _ _ _ ht hslotInj
  have hhead : (s.after (copies ++ [head] ++ homes)).mem lg.start =
      fillHead lg.lh (s.mem lg.start) := by
    change applyWrites s.mem (copies ++ [head] ++ homes) lg.start = _
    rw [applyWrites_append, applyWrites_loop_of_ne, applyWrites_concat, Function.update_self]
    intro t ht heq
    exact h.outside t ht (heq ▸ start_inLog hsize)
  rw [commit, if_pos hpos, stateM_bind_run, writeLog_run lg s h.room h.outside]
  change ((writeHead storeOps lg >>= _ : StateM Store Log)).run (s.after copies) = _
  rw [stateM_bind_run, writeHead_run, hstart, after_after]
  change ((installTrans storeOps lg >>= _ : StateM Store Log)).run
    (s.after (copies ++ [head])) = _
  rw [stateM_bind_run, installTrans_run lg _ h.room h.outside, hcopied, after_after]
  change ((writeHead storeOps lg.clear >>= _ : StateM Store Log)).run
    (s.after (copies ++ [head] ++ homes)) = _
  rw [stateM_bind_run, writeHead_run, clear_start, hhead, after_after]
  rfl

theorem fillHead_of_n_eq_zero (lh : LogHeader) (hb : Block) (h : lh.n = 0) :
    fillHead lh hb = hb.setNum 4 0 0 := by
  simp [fillHead, h, ofSigned]

/-- The writes of `recover_from_log` on disk `d`: the committed copies to their
homes, then the cleared header. -/
def recoverWrites (lg : Log) (d : Nat → Block) : List (Nat × Block) :=
  loopWrites (headBlock (d lg.start)) (fun t => d (slot lg t)) (headN (d lg.start)).toNat ++
    [(lg.start, (d lg.start).setNum 4 0 0)]

/-- A header that a `commit` wrote, or a cleared one: recovery does not leave
the log region when it reads the copies and writes only outside it. -/
def HeadOk (lg : Log) (b : Block) : Prop :=
  headN b ≤ (lg.size : Int) - 1 ∧ ∀ i < (headN b).toNat, ¬ InLog lg (headBlock b i)

theorem recoverFromLog_run (lg : Log) (d : Nat → Block) (hsize : 1 ≤ lg.size)
    (h : HeadOk lg (d lg.start)) :
    ((recoverFromLog storeOps lg).run (boot d)).2 = (boot d).after (recoverWrites lg d) := by
  let n := (headN (d lg.start)).toNat
  let lg' : Log := { lg with lh :=
    { n := headN (d lg.start)
      block := fun i => if i < n then headBlock (d lg.start) i else lg.lh.block i } }
  have hblock : ∀ t < n, lg'.lh.block t = headBlock (d lg.start) t := by
    intro t ht
    simp [lg', ht]
  have hout : ∀ i < lg'.lh.n.toNat, ¬ InLog lg' (lg'.lh.block i) := by
    intro i hi
    rw [hblock i hi]
    exact h.2 i hi
  have hcopies : loopWrites lg'.lh.block (fun t => (boot d).mem (slot lg' t)) n =
      loopWrites (headBlock (d lg.start)) (fun t => d (slot lg t)) n := by
    apply List.map_congr_left
    intro t ht
    rw [hblock t (List.mem_range.mp ht)]
    rfl
  have hstart : ((boot d).after (loopWrites (headBlock (d lg.start))
      (fun t => d (slot lg t)) n)).mem lg.start = d lg.start := by
    apply applyWrites_loop_of_ne
    intro t ht heq
    have hoff := h.2 t ht
    rw [heq] at hoff
    exact hoff (start_inLog hsize)
  rw [recoverFromLog, stateM_bind_run, readHead_run]
  change ((installTrans storeOps lg' >>= _ : StateM Store Log).run (boot d)).2 = _
  rw [stateM_bind_run, installTrans_run lg' _ h.1 hout]
  change ((writeHead storeOps lg'.clear >>= _ : StateM Store Log).run ((boot d).after
    (loopWrites lg'.lh.block (fun t => (boot d).mem (slot lg' t)) n))).2 = _
  rw [stateM_bind_run, writeHead_run, hcopies, clear_start,
    fillHead_of_n_eq_zero _ _ (clear_n lg'), after_after]
  change (boot d).after (loopWrites _ _ n ++ [(lg.start, Bytes.setNum
    (((boot d).after (loopWrites (headBlock (d lg.start)) _ n)).mem lg.start) 4 0 0)]) = _
  rw [hstart]
  rfl

end Xv6.Log
