import Xv6.Fs.FileWrite
import Xv6.Lib.Tally

/-!
Calls of `filewrite` by processes that share one open file. A step is one
transaction of one call; between the steps of a call any other call may make
some. The offset in the shared `struct file` gives every piece its own place.
-/

namespace Xv6.Fs

open Prog

structure WriteCall (P : Type) where
  proc : P
  src : Nat → UInt8
  n : Nat

/-- What one transaction wrote: for which call, at which offset of the file, and
the bytes. -/
structure Piece (ι : Type) where
  call : ι
  start : Nat
  bytes : List UInt8

/-- `done` is the variable `i` of each call and `failed` that it has left its
loop with -1. The pieces are recorded for the proofs only. -/
structure Sharing (P ι : Type) where
  fs : FsState P
  done : ι → Nat
  failed : ι → Bool
  pieces : List (Piece ι)

/-- `len` bytes from `i` on. -/
def slice (src : Nat → UInt8) (i len : Nat) : List UInt8 :=
  (List.range len).map fun j => src (i + j)

section Steps

variable {P ι : Type} [DecidableEq P] [DecidableEq ι]

def inFs {α : Type} (x : FsM P α) : Prog (Sharing P ι) Panic α := fun s =>
  ((x s.fs).1, { s with fs := (x s.fs).2 })

/-- `n1` of the next round of call `q`. -/
def Sharing.next (calls : ι → WriteCall P) (s : Sharing P ι) (q : ι) : Nat :=
  min ((calls q).n - s.done q) writeMax

/-- The next transaction of call `q`, if it has one. -/
def writeStep (calls : ι → WriteCall P) (f : Fin NFILE) (ip : Ip) (q : ι) :
    Prog (Sharing P ι) Panic Unit := do
  let s ← gets fun s => s
  let n1 := s.next calls q
  when (s.done q < (calls q).n ∧ s.failed q = false) do
    let r ← inFs (filewriteSection diskOps (calls q).proc f ip (calls q).src (s.done q) n1)
    if r < 0 then
      modify fun s => { s with failed := set s.failed q true }
    else do
      panicIf (r ≠ n1) .shortFilewrite
      modify fun s' => { s' with
        done := set s.done q (s.done q + n1)
        pieces := s.pieces ++ [⟨q, s.fs.off f, slice (calls q).src (s.done q) n1⟩] }

/-- All calls are about to begin. -/
def Sharing.start (c : FsState P) : Sharing P ι := ⟨c, fun _ => 0, fun _ => false, []⟩

end Steps

/-- The bytes of pieces, one after the other. -/
def contents {ι : Type} (ps : List (Piece ι)) : List UInt8 := (ps.map Piece.bytes).flatten

section

variable {P ι : Type} {sb : Superblock} {ds : Nat} {f : Fin NFILE} {ip : Ip} {i : Nat} {v : View}
  {c : FsState P}

theorem contents_append (ps : List (Piece ι)) (x : Piece ι) :
    contents (ps ++ [x]) = contents ps ++ x.bytes := by
  simp [contents]

theorem length_slice (src : Nat → UInt8) (i len : Nat) : (slice src i len).length = len := by
  simp [slice]

theorem slice_append (src : Nat → UInt8) (i m len : Nat) :
    slice src i m ++ slice src (i + m) len = slice src i (m + len) := by
  unfold slice
  rw [List.range_add, List.map_append, List.map_map]
  congr 2
  funext j
  exact congrArg src (Nat.add_assoc i m j)

theorem getD_slice (src : Nat → UInt8) (i : Nat) {len j : Nat} (hj : j < len) :
    (slice src i len).getD j 0 = src (i + j) := by
  simp [slice, List.getD_eq_getElem?_getD, hj]

variable {s : Sharing P ι} {v' : View}

theorem wp_inFs {α : Type} {x : FsM P α} {Q : α → Sharing P ι → Prop}
    {E : Panic → Sharing P ι → Prop}
    (h : wp x (fun a c => Q a { s with fs := c }) (fun e c => E e { s with fs := c }) s.fs) :
    wp (inFs x) Q E s := by
  unfold wp inFs at *
  rcases hx : x s.fs with ⟨e | a, c⟩
  · rw [hx] at h
    exact h
  · rw [hx] at h
    exact h

/-- Only the bytes that were written matter. -/
theorem Wrote.congr {src src' : Nat → UInt8} {off m : Nat} (h : Wrote sb v i src off m v')
    (hsame : ∀ j < m, src j = src' j) : Wrote sb v i src' off m v' := by
  rcases h with hzero | ⟨hpos, hle, hmax, hs⟩
  · exact Or.inl hzero
  · refine Or.inr ⟨hpos, hle, hmax, { hs with bytes := ?_ }⟩
    intro j o
    rw [hs.bytes]
    by_cases hin : j = i ∧ off ≤ o ∧ o < off + m
    · rw [if_pos hin, if_pos hin, hsame _ (by omega)]
    · rw [if_neg hin, if_neg hin]

theorem Wrote.size {src : Nat → UInt8} {off m : Nat} (h : Wrote sb v i src off m v')
    (hle : off ≤ (v.ino i).size) : off + m ≤ (v'.ino i).size := by
  rcases h with ⟨rfl, rfl⟩ | ⟨-, -, -, hs⟩
  · exact hle
  · have hsize : (v'.ino i).size = max (v.ino i).size (off + m) := congrArg Meta.size hs.fields
    omega

variable [Fintype ι] [DecidableEq ι] {calls : ι → WriteCall P}

/-- What holds after every step: the file is as if the pieces had been written
at once, one after the other, and those of each call are the beginning of its
buffer. -/
structure Interleaved (sb : Superblock) (ds : Nat) (f : Fin NFILE) (ip : Ip) (i : Nat) (v : View)
    (c : FsState P) (calls : ι → WriteCall P) (s : Sharing P ι) : Prop where
  file : ∃ v', OpenFile sb ds f ip i v' s.fs ∧
    Wrote sb v i (fun j => (contents s.pieces).getD j 0) (c.off f) (contents s.pieces).length v'
  off : s.fs.off f = c.off f + (contents s.pieces).length
  starts : ∀ pre x post, s.pieces = pre ++ x :: post →
    x.start = c.off f + (contents pre).length
  own : ∀ q, contents (s.pieces.filter fun x => x.call = q) = slice (calls q).src 0 (s.done q)
  total : (contents s.pieces).length = ∑ q, s.done q
  le : ∀ q, s.done q ≤ (calls q).n
  ok : ∀ q, s.failed q = false

theorem Interleaved.start (h : OpenFile sb ds f ip i v c) :
    Interleaved sb ds f ip i v c calls (Sharing.start c) where
  file := ⟨v, h, Or.inl ⟨rfl, rfl⟩⟩
  off := rfl
  starts := by
    intro pre x post heq
    simp [Sharing.start] at heq
  own := fun _ => rfl
  total := by simp [Sharing.start, contents]
  le := fun _ => Nat.zero_le _
  ok := fun _ => rfl

/-- A step of the calls that are not complete goes on behind the last piece. -/
theorem Interleaved.add (h : OpenFile sb ds f ip i v c) (hs : Interleaved sb ds f ip i v c calls s)
    {q : ι} {n1 : Nat} (hpos : 0 < n1) (hn1 : s.done q + n1 ≤ (calls q).n) {v'' : View}
    {c' : FsState P}
    (hw : Wrote sb v i (fun j => (contents s.pieces).getD j 0) (c.off f)
      (contents s.pieces).length v')
    (hle : s.fs.off f ≤ (v'.ino i).size) (hmax : s.fs.off f + n1 ≤ MAXFILE * BSIZE)
    (h' : OpenFile sb ds f ip i v'' c')
    (hst : Stored sb v' i (fun j => (calls q).src (s.done q + j)) (s.fs.off f) n1 v'')
    (hoff : c'.off f = s.fs.off f + n1) : Interleaved sb ds f ip i v c calls { s with
      fs := c'
      done := set s.done q (s.done q + n1)
      pieces := s.pieces ++ [⟨q, s.fs.off f, slice (calls q).src (s.done q) n1⟩] } where
  file := by
    refine ⟨v'', h', ?_⟩
    dsimp only
    rw [contents_append, List.length_append, length_slice]
    rw [hs.off] at hle hmax hst
    -- the bytes so far followed by those of the piece
    have hfirst (j : Nat) (hj : j < (contents s.pieces).length) :
        (contents s.pieces).getD j 0 =
          (contents s.pieces ++ slice (calls q).src (s.done q) n1).getD j 0 := by
      rw [List.getD_append _ _ _ _ hj]
    refine (hw.congr hfirst).add h hpos hle hmax ?_
    refine { hst with bytes := ?_ }
    intro j o
    rw [hst.bytes]
    by_cases hin : j = i ∧ c.off f + (contents s.pieces).length ≤ o ∧
        o < c.off f + (contents s.pieces).length + n1
    · rw [if_pos hin, if_pos hin, List.getD_append_right _ _ _ _ (Nat.le_add_right _ _),
        Nat.add_sub_cancel_left, getD_slice _ _ (by omega)]
    · rw [if_neg hin, if_neg hin]
  off := by
    dsimp only
    rw [contents_append, List.length_append, length_slice, hoff, hs.off, Nat.add_assoc]
  starts := by
    intro pre x post heq
    rcases List.eq_nil_or_concat post with rfl | ⟨post, y, rfl⟩
    · obtain ⟨rfl, hx⟩ := List.append_inj' heq rfl
      cases hx
      exact hs.off
    · have heq' : s.pieces ++ [⟨q, s.fs.off f, slice (calls q).src (s.done q) n1⟩] =
          (pre ++ x :: post) ++ [y] := by simpa using heq
      exact hs.starts pre x post (List.append_inj' heq' rfl).1
  own := by
    intro q'
    dsimp only
    rw [List.filter_append]
    by_cases hq : q = q'
    · subst hq
      have hone : List.filter (fun x : Piece ι => decide (x.call = q))
          [⟨q, s.fs.off f, slice (calls q).src (s.done q) n1⟩] =
          [⟨q, s.fs.off f, slice (calls q).src (s.done q) n1⟩] := by simp
      rw [hone, contents_append, hs.own, set_self]
      have happend := slice_append (calls q).src 0 (s.done q) n1
      rwa [Nat.zero_add] at happend
    · have hnone : List.filter (fun x : Piece ι => decide (x.call = q'))
          [⟨q, s.fs.off f, slice (calls q).src (s.done q) n1⟩] = [] := by simp [hq]
      rw [hnone, List.append_nil, hs.own, set_of_ne _ _ (Ne.symm hq)]
  total := by
    dsimp only
    rw [contents_append, List.length_append, length_slice, hs.total]
    have hsum := Tally.sum_set (fun x => x) s.done q (s.done q + n1)
    omega
  le := by
    intro q'
    dsimp only
    by_cases hq : q' = q
    · subst hq
      rw [set_self]
      exact hn1
    · rw [set_of_ne _ _ hq]
      exact hs.le q'
  ok := hs.ok

theorem Interleaved.room (hle : c.off f ≤ (v.ino i).size)
    (hmax : c.off f + ∑ q, (calls q).n ≤ MAXFILE * BSIZE)
    (hs : Interleaved sb ds f ip i v c calls s)
    (hw : Wrote sb v i (fun j => (contents s.pieces).getD j 0) (c.off f)
      (contents s.pieces).length v')
    {q : ι} {n1 : Nat} (hn1 : s.done q + n1 ≤ (calls q).n) :
    s.fs.off f ≤ (v'.ino i).size ∧ s.fs.off f + n1 ≤ MAXFILE * BSIZE := by
  -- if `q` had these bytes already, all calls would still be within their lengths
  have hsum := Tally.sum_set (fun x => x) s.done q (s.done q + n1)
  have hless : ∑ q', Prog.set s.done q (s.done q + n1) q' ≤ ∑ q', (calls q').n := by
    apply Finset.sum_le_sum
    intro q' _
    by_cases hq : q' = q
    · subst hq
      rw [set_self]
      exact hn1
    · rw [set_of_ne _ _ hq]
      exact hs.le q'
  have htotal := hs.total
  rw [hs.off]
  exact ⟨hw.size hle, by omega⟩

variable [DecidableEq P]

theorem Interleaved.wp_writeStep (hl : Layout sb ds) (h : OpenFile sb ds f ip i v c)
    (hle : c.off f ≤ (v.ino i).size) (hmax : c.off f + ∑ q, (calls q).n ≤ MAXFILE * BSIZE)
    (hs : Interleaved sb ds f ip i v c calls s) (q : ι) : wp (writeStep calls f ip q)
      (fun _ s' => Interleaved sb ds f ip i v c calls s' ∧ (∀ q', s.done q' ≤ s'.done q') ∧
        (s.done q < (calls q).n → s.done q < s'.done q))
      (fun e s' => NoBlocks e s'.fs) s := by
  have hn1 : s.next calls q = min ((calls q).n - s.done q) writeMax := rfl
  have hmaxpos : 0 < writeMax := by decide
  have hbig : writeMax < 2 ^ 32 := by decide
  unfold writeStep
  refine wp_bind.mpr ((wp_gets _).mpr ?_)
  refine wp_when.mpr ⟨?_, fun hskip => ⟨hs, fun _ => Nat.le_refl _, ?_⟩⟩
  · rintro ⟨hlt, -⟩
    obtain ⟨v', hopen, hw⟩ := hs.file
    have hroom := hs.room hle hmax hw (by omega : s.done q + s.next calls q ≤ (calls q).n)
    refine wp_seq (Q := fun (r : Int) (s' : Sharing P ι) => r = s.next calls q ∧
        ∃ v'', s' = { s with fs := s'.fs } ∧
        OpenFile sb ds f ip i v'' s'.fs ∧
        Stored sb v' i (fun j => (calls q).src (s.done q + j)) (s.fs.off f) (s.next calls q) v'' ∧
        s'.fs.off f = s.fs.off f + s.next calls q) ?_ ?_
    · refine wp_inFs (wp_mono (wp_filewriteSection hl hopen (calls q).src (s.done q) (by omega))
        ?_ (fun _ _ he => he.1))
      rintro r c' (⟨-, -, hr, v'', hopen', hst, hoff⟩ | ⟨hbad, -⟩)
      · exact ⟨hr, v'', rfl, hopen', hst, hoff⟩
      · exact absurd hroom hbad
    · rintro r s' ⟨rfl, v'', heq, hopen', hst, hoff⟩
      refine wp_ite (fun hneg => absurd hneg (by omega)) (fun _ => ?_)
      refine wp_bind.mpr (wp_panicIf.mpr ⟨fun hne => absurd rfl hne, fun _ => ?_⟩)
      rw [heq]
      refine (wp_modify _).mpr ⟨?_, ?_, ?_⟩
      · exact hs.add h (by omega) (by omega) hw hroom.1 hroom.2 hopen' hst hoff
      · intro q'
        dsimp only
        by_cases hq : q' = q
        · subst hq
          rw [set_self]
          omega
        · rw [set_of_ne _ _ hq]
      · intro _
        dsimp only
        rw [set_self]
        omega
  · intro hlt
    exact absurd ⟨hlt, hs.ok q⟩ hskip

/-- In any order of the transactions of any calls: the pieces lie one behind the
other from the first offset on, the file holds exactly their bytes there, and
the pieces of each call are the bytes of its buffer in order. The offset of an
open file is never beyond its size: it starts at 0, and only reads and writes
that end within the file move it. -/
theorem shared_writes_interleave (hl : Layout sb ds) (h : OpenFile sb ds f ip i v c)
    (hle : c.off f ≤ (v.ino i).size) (hmax : c.off f + ∑ q, (calls q).n ≤ MAXFILE * BSIZE)
    (schedule : List ι) :
    wp (forEach (writeStep calls f ip) schedule)
      (fun _ s => (∀ q, s.failed q = false) ∧
        (∀ q, min (calls q).n (schedule.count q) ≤ s.done q ∧ s.done q ≤ (calls q).n) ∧
        (∀ pre x post, s.pieces = pre ++ x :: post →
          x.start = c.off f + (contents pre).length) ∧
        (∀ q, contents (s.pieces.filter fun x => x.call = q) = slice (calls q).src 0 (s.done q)) ∧
        (contents s.pieces).length = ∑ q, s.done q ∧
        s.fs.off f = c.off f + ∑ q, s.done q ∧
        ((∀ q, s.done q = (calls q).n) → s.fs.off f = c.off f + ∑ q, (calls q).n) ∧
        ∃ v', OpenFile sb ds f ip i v' s.fs ∧ ∀ o, v'.byteAt sb i o =
          if c.off f ≤ o ∧ o < s.fs.off f then (contents s.pieces).getD (o - c.off f) 0
          else v.byteAt sb i o)
      (fun e s => NoBlocks e s.fs) (Sharing.start c) := by
  refine wp_forEach schedule (fun rest s => Interleaved sb ds f ip i v c calls s ∧
    ∀ q, min (calls q).n (schedule.count q) ≤ s.done q + rest.count q) ?_ ?_ ?_
  · refine ⟨Interleaved.start h, fun q => ?_⟩
    have hzero : (Sharing.start c : Sharing P ι).done q = 0 := rfl
    omega
  · rintro q rest s ⟨hs, hcount⟩
    refine wp_mono (hs.wp_writeStep hl h hle hmax q) ?_ (fun _ _ he => he)
    rintro _ s' ⟨hs', hmono, hmore⟩
    refine ⟨hs', fun q' => ?_⟩
    have hcount' := hcount q'
    have hmono' := hmono q'
    rw [List.count_cons] at hcount'
    by_cases hq : q = q'
    · subst hq
      rw [if_pos (by simp)] at hcount'
      by_cases hlt : s.done q < (calls q).n
      · have := hmore hlt
        omega
      · omega
    · rw [if_neg (by simpa using hq)] at hcount'
      omega
  · rintro s ⟨hs, hcount⟩
    have hoff : s.fs.off f = c.off f + ∑ q, s.done q := by rw [hs.off, hs.total]
    refine ⟨hs.ok, fun q => ⟨hcount q, hs.le q⟩, hs.starts, hs.own, hs.total, hoff, ?_, ?_⟩
    · intro hall
      rw [hoff]
      exact congrArg _ (Finset.sum_congr rfl fun q _ => hall q)
    · obtain ⟨v', hopen, hw⟩ := hs.file
      refine ⟨v', hopen, fun o => ?_⟩
      rw [hs.off]
      rcases hw with ⟨hzero, rfl⟩ | ⟨-, -, -, hst⟩
      · rw [if_neg (by omega)]
      · rw [hst.bytes]
        simp only [true_and]

end

/-- A parent and a child that write 2000 bytes each. -/
def twoWriters (q : Bool) : WriteCall Slot :=
  ⟨if q then 0 else 1, fun _ => if q then 8 else 7, 2000⟩

theorem shared_writes_openedFile :
    ∃ s, forEach (writeStep twoWriters firstFile 1) [true, false, true, false]
        (Sharing.start openedFile) = (.ok (), s) ∧
      s.fs.off firstFile = 4000 ∧ (contents s.pieces).length = 4000 := by
  obtain ⟨c, hc⟩ : ∃ c, c = openedFile := ⟨_, rfl⟩
  have hopen : OpenFile mkfsSuper FSSIZE firstFile 1 2 fileView c := hc ▸ openedFile_open
  have hzero : c.off firstFile = 0 := by rw [hc]; rfl
  obtain ⟨run, hdef⟩ : ∃ run, run = forEach (writeStep twoWriters firstFile 1)
    [true, false, true, false] (Sharing.start c) := ⟨_, rfl⟩
  have hok : run.1 = .ok () ∧ run.2.done true = 2000 ∧ run.2.done false = 2000 := by
    rw [hdef, hc]
    decide +kernel
  rw [← hc]
  have hmax : c.off firstFile + ∑ q, (twoWriters q).n ≤ MAXFILE * BSIZE := by
    rw [hzero]
    decide
  have hwp := shared_writes_interleave mkfs_layout hopen (hzero.trans_le (Nat.zero_le _)) hmax
    [true, false, true, false]
  obtain ⟨r, s⟩ := run
  obtain ⟨rfl, htrue, hfalse⟩ := hok
  obtain ⟨-, -, -, -, hlength, hoff, -, -⟩ := of_wp_ok hwp hdef.symm
  have hsum : ∑ q, s.done q = 4000 := by rw [Fintype.sum_bool, htrue, hfalse]
  refine ⟨s, hdef.symm, ?_, ?_⟩
  · rw [hoff, hzero, hsum]
  · rw [hlength, hsum]

end Xv6.Fs
