import Xv6.Param

/-!
The redo log of `log.c`. The functions that move blocks between the cache, the
log region and the home locations are written once, over whatever buffer
operations they run on: a plain block store (`Log/Store.lean`) for the crash
argument, and the buffer cache of `bio.c` for the cache argument.
-/

namespace Xv6

open ByteSeq

/-- `struct logheader`: `n` and the home block numbers `block[0..n)`. -/
structure LogHeader where
  n : Int
  block : Nat → Nat

/-- The part of `struct log` that `commit` and `recover_from_log` read. -/
structure Log where
  start : Nat
  size : Nat
  dev : Nat
  lh : LogHeader

/-- The header entries in use, in order. -/
def LogHeader.entries (lh : LogHeader) : List Nat := (List.range lh.n.toNat).map lh.block

/-- The locked part of `log_write`: look for `b` among the entries, store it at
the index where the loop stopped, and count it if it is a new one. -/
def LogHeader.absorb (lh : LogHeader) (b : Nat) : LogHeader :=
  let i := (List.range lh.n.toNat).findIdx (fun i => lh.block i == b)
  { n := if (i : Int) = lh.n then lh.n + 1 else lh.n
    block := Function.update lh.block i b }

namespace Log

/-- Buffer operations a file-system function calls, in any monad. `data` and
`setData` are the reads and writes of `b->data`. -/
structure BufOps (m : Type → Type) (Buf : Type) where
  bread : Nat → Nat → m Buf
  data : Buf → m Block
  setData : Buf → Block → m Unit
  bwrite : Buf → m Unit
  brelse : Buf → m Unit

/-- `lh->n` of a header block. -/
def headN (b : Block) : Int := toSigned 4 (b.num 4 0)

/-- `lh->block[i]` of a header block. -/
def headBlock (b : Block) (i : Nat) : Nat := b.num 4 (4 + 4 * i)

/-- The stores of `write_head` into the header buffer. Only `n` and the first
`n` block numbers are written; the rest of the block keeps its bytes. -/
def fillHead (lh : LogHeader) (hb : Block) : Block :=
  (List.range lh.n.toNat).foldl (fun b i => b.setNum 4 (4 + 4 * i) (lh.block i))
    (hb.setNum 4 0 (ofSigned 4 lh.n))

section Functions

variable {m : Type → Type} [Monad m] {Buf : Type} (io : BufOps m Buf)

/-- `for (tail = 0; tail < k; tail++) body`. -/
def forTail (body : Nat → m Unit) : Nat → m Unit
  | 0 => pure ()
  | k + 1 => do
    forTail body k
    body k

/-- One iteration of `install_trans`: copy a log block to its home. -/
def installOne (lg : Log) (tail : Nat) : m Unit := do
  let lbuf ← io.bread lg.dev (lg.start + tail + 1)
  let dbuf ← io.bread lg.dev (lg.lh.block tail)
  let d ← io.data lbuf
  io.setData dbuf d
  io.bwrite dbuf
  io.brelse lbuf
  io.brelse dbuf

def installTrans (lg : Log) : m Unit :=
  forTail (installOne io lg) lg.lh.n.toNat

def readHead (lg : Log) : m Log := do
  let buf ← io.bread lg.dev lg.start
  let lh ← io.data buf
  io.brelse buf
  return { lg with lh :=
    { n := headN lh
      block := fun i => if i < (headN lh).toNat then headBlock lh i else lg.lh.block i } }

def writeHead (lg : Log) : m Unit := do
  let buf ← io.bread lg.dev lg.start
  let hb ← io.data buf
  io.setData buf (fillHead lg.lh hb)
  io.bwrite buf
  io.brelse buf

/-- `log.lh.n = 0`. -/
def clear (lg : Log) : Log := { lg with lh := { lg.lh with n := 0 } }

def recoverFromLog (lg : Log) : m Log := do
  let lg ← readHead io lg
  installTrans io lg
  writeHead io lg.clear
  return lg.clear

/-- One iteration of `write_log`: copy a cached block to its log block. -/
def writeLogOne (lg : Log) (tail : Nat) : m Unit := do
  let dst ← io.bread lg.dev (lg.start + tail + 1)
  let src ← io.bread lg.dev (lg.lh.block tail)
  let d ← io.data src
  io.setData dst d
  io.bwrite dst
  io.brelse src
  io.brelse dst

def writeLog (lg : Log) : m Unit :=
  forTail (writeLogOne io lg) lg.lh.n.toNat

def commit (lg : Log) : m Log :=
  if 0 < lg.lh.n then do
    writeLog io lg
    writeHead io lg
    installTrans io lg
    writeHead io lg.clear
    return lg.clear
  else
    return lg

end Functions

/-! ### The in-memory header -/

/-- Absorption keeps one entry per block. -/
theorem entries_absorb (lh : LogHeader) (b : Nat) (h0 : 0 ≤ lh.n) :
    (lh.absorb b).entries = if b ∈ lh.entries then lh.entries else lh.entries ++ [b] := by
  let i := (List.range lh.n.toNat).findIdx (fun i => lh.block i == b)
  have habsorb : lh.absorb b = ⟨if (i : Int) = lh.n then lh.n + 1 else lh.n,
      Function.update lh.block i b⟩ := rfl
  by_cases hmem : b ∈ lh.entries
  · obtain ⟨j, hj, hjb⟩ := List.mem_map.mp hmem
    have hi : i < lh.n.toNat := by
      have hlt : i < (List.range lh.n.toNat).length :=
        List.findIdx_lt_length_of_exists ⟨j, hj, by simpa using hjb⟩
      simpa using hlt
    have hib : lh.block i = b := by
      have hget := @List.findIdx_getElem _ (fun i => lh.block i == b)
        (List.range lh.n.toNat) (by simpa using hi)
      simpa [i] using hget
    rw [if_pos hmem, habsorb, LogHeader.entries, LogHeader.entries,
      if_neg (by omega), ← hib, Function.update_eq_self]
  · have hi : i = lh.n.toNat := by
      have hlen : i = (List.range lh.n.toNat).length := by
        apply List.findIdx_eq_length_of_false
        intro j hj
        simp only [beq_eq_false_iff_ne]
        exact fun heq => hmem (List.mem_map.mpr ⟨j, hj, heq⟩)
      simpa using hlen
    have hn : (i : Int) = lh.n := by omega
    rw [if_neg hmem, habsorb, LogHeader.entries, LogHeader.entries, if_pos hn,
      show (lh.n + 1).toNat = lh.n.toNat + 1 by omega, List.range_succ, List.map_append]
    congr 1
    · apply List.map_congr_left
      intro j hj
      have hlt := List.mem_range.mp hj
      exact Function.update_of_ne (by omega) _ _
    · simp [← hi]

/-! ### The header codec -/

@[simp] theorem clear_n (lg : Log) : lg.clear.lh.n = 0 := rfl
@[simp] theorem clear_start (lg : Log) : lg.clear.start = lg.start := rfl
@[simp] theorem clear_block (lg : Log) : lg.clear.lh.block = lg.lh.block := rfl

private theorem fillEntries_num (block : Nat → Nat) (hb : Block) (k w off : Nat)
    (hoff : off + w ≤ 4) :
    ((List.range k).foldl (fun b i => b.setNum 4 (4 + 4 * i) (block i)) hb).num w off =
      hb.num w off := by
  induction k with
  | zero => rfl
  | succ k ih =>
    rw [List.range_succ, List.foldl_append]
    simp only [List.foldl_cons, List.foldl_nil]
    rw [Bytes.num_setNum_of_disjoint _ _ (by omega), ih]

private theorem fillEntries_block (block : Nat → Nat) (hb : Block) (k : Nat)
    (hk : k ≤ LOGSIZE) (i : Nat) (hi : i < k) :
    headBlock ((List.range k).foldl
      (fun b i => b.setNum 4 (4 + 4 * i) (block i)) hb) i = block i % 2 ^ 32 := by
  have hcap : LOGSIZE = 30 := rfl
  induction k with
  | zero => omega
  | succ k ih =>
    rw [List.range_succ, List.foldl_append]
    simp only [List.foldl_cons, List.foldl_nil, headBlock]
    by_cases hik : i = k
    · subst hik
      rw [Bytes.num_setNum_self _ _ (by simp only [BSIZE]; omega)]
      norm_num
    · rw [Bytes.num_setNum_of_disjoint _ _ (by omega)]
      exact ih (by omega) (by omega)

/-- The header written for `lh` reads back as `lh`. -/
theorem headN_fillHead (lh : LogHeader) (hb : Block) (h0 : 0 ≤ lh.n)
    (hcap : lh.n ≤ LOGSIZE) : headN (fillHead lh hb) = lh.n := by
  have hsize : (LOGSIZE : Int) = 30 := rfl
  rw [headN, fillHead, fillEntries_num _ _ _ _ _ (by omega),
    Bytes.num_setNum_self _ _ (by simp [BSIZE]),
    Nat.mod_eq_of_lt (ofSigned_lt 4 lh.n)]
  exact toSigned_ofSigned (by omega) (by omega)

theorem headBlock_fillHead (lh : LogHeader) (hb : Block) (hcap : lh.n ≤ LOGSIZE)
    (i : Nat) (hi : i < lh.n.toNat) :
    headBlock (fillHead lh hb) i = lh.block i % 2 ^ 32 :=
  fillEntries_block _ _ _ (by omega) i hi

end Log

end Xv6
