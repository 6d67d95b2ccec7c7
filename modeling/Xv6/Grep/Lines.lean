import Xv6.Grep.Match
import Xv6.Ulib.Strings

/-!
The loop of `grep` over the pieces of a file that `read` returns. What is left of
a line after the last newline in the buffer is moved to its front; if there is no
newline at all, the buffer is emptied.
-/

namespace Xv6.Grep

open Prog Ulib

def newline : UInt8 := 10

/-- `sizeof(buf)` -/
def BUFSIZE : Nat := 1024

/-- The string at an address. -/
def cstring (m : Memory) : Nat → Nat → Option Str
  | 0, _ => none
  | rounds + 1, a => if m a = 0 then some [] else (m a :: ·) <$> cstring m rounds (a + 1)

/-- The inner loop, from the line at `p` on: what is written, the buffer and the
last `p`. -/
def grepLines (pattern : Str) : Nat → Memory → Nat → Option (Str × Memory × Nat)
  | 0, _, _ => none
  | rounds + 1, buf, p => do
    match ← strchr buf newline rounds p with
    | none => return ([], buf, p)
    | some q =>
      let buf := buf.put q 0
      let text ← cstring buf rounds p
      if ← matchText rounds pattern text then
        let buf := buf.put q newline
        let (out, rest) ← grepLines pattern rounds buf (q + 1)
        return (buf.bytes p (q + 1 - p) ++ out, rest)
      else
        grepLines pattern rounds buf (q + 1)

/-- The bytes that `read` stores at `a`. -/
def store (m : Memory) (a : Nat) (piece : Str) : Memory := fun x =>
  if a ≤ x ∧ x < a + piece.length then piece.getD (x - a) 0 else m x

/-- The end of the round: what comes after `p` goes to the front of the buffer,
unless `p` is the front. -/
def shift (buf : Memory) (m p : Nat) : Memory × Nat :=
  let m := if p = 0 then 0 else m
  if 0 < m then (memmove (m - p) buf 0 p, m - p) else (buf, m)

/-- The outer loop, with the pieces that `read` is going to return: what is
written, and how many bytes each `read` asked for. There is no result if the
buffer is left. -/
def grepLoop (pattern : Str) (rounds : Nat) : List Str → Memory → Nat → Option (Str × List Nat)
  | [], _, m => some ([], [BUFSIZE - m - 1])
  | piece :: pieces, buf, m =>
    if piece = [] then some ([], [BUFSIZE - m - 1])
    else if BUFSIZE ≤ m + piece.length then none
    else do
      let asked := BUFSIZE - m - 1
      let buf := store buf m piece
      let m := m + piece.length
      let buf := buf.put m 0
      let (out, buf, p) ← grepLines pattern rounds buf 0
      let (buf, m) := shift buf m p
      let (out', asks) ← grepLoop pattern rounds pieces buf m
      return (out ++ out', asked :: asks)

def grep (rounds : Nat) (pattern : Str) (buf : Memory) (pieces : List Str) :
    Option (Str × List Nat) := grepLoop pattern rounds pieces buf 0

/-! ### Lines -/

/-- The lines that end in a newline, without it, and what comes after the last. -/
def lines : Str → List Str × Str
  | [] => ([], [])
  | x :: s =>
    if x = newline then ([] :: (lines s).1, (lines s).2)
    else match lines s with
      | ([], rest) => ([], x :: rest)
      | (l :: ls, rest) => ((x :: l) :: ls, rest)

variable {s t l : Str} {ls : List Str}

theorem lines_of_not_mem (h : newline ∉ s) : lines s = ([], s) := by
  induction s with
  | nil => rfl
  | cons x s ih =>
    have hx : x ≠ newline := fun hx => h (hx ▸ List.mem_cons_self)
    rw [lines, if_neg hx, ih fun hm => h (List.mem_cons_of_mem x hm)]

theorem lines_append_newline (h : newline ∉ s) :
    lines (s ++ newline :: t) = (s :: (lines t).1, (lines t).2) := by
  induction s with
  | nil => rw [List.nil_append, lines, if_pos rfl]
  | cons x s ih =>
    have hx : x ≠ newline := fun hx => h (hx ▸ List.mem_cons_self)
    rw [List.cons_append, lines, if_neg hx, ih fun hm => h (List.mem_cons_of_mem x hm)]

/-- A string has no newline, or it has a first one. -/
theorem exists_newline (s : Str) : newline ∉ s ∨ ∃ l t, s = l ++ newline :: t ∧ newline ∉ l := by
  induction s with
  | nil => exact Or.inl List.not_mem_nil
  | cons x s ih =>
    by_cases hx : x = newline
    · exact Or.inr ⟨[], s, by rw [hx]; rfl, List.not_mem_nil⟩
    · rcases ih with hnone | ⟨l, t, rfl, hl⟩
      · exact Or.inl fun hm => (List.mem_cons.mp hm).elim (fun h => hx h.symm) hnone
      · exact Or.inr ⟨x :: l, t, rfl,
          fun hm => (List.mem_cons.mp hm).elim (fun h => hx h.symm) hl⟩

/-- Induction over the lines of a string. -/
theorem lines_induction {motive : Str → Prop} (rest : ∀ s, newline ∉ s → motive s)
    (line : ∀ l t, newline ∉ l → motive t → motive (l ++ newline :: t)) (s : Str) : motive s := by
  induction hlen : s.length using Nat.strong_induction_on generalizing s with
  | _ n ih =>
    subst hlen
    rcases exists_newline s with hnone | ⟨l, t, rfl, hl⟩
    · exact rest s hnone
    · refine line l t hl (ih t.length ?_ t rfl)
      rw [List.length_append, List.length_cons]
      omega

theorem lines_append (s t : Str) : lines (s ++ t) =
    ((lines s).1 ++ (lines ((lines s).2 ++ t)).1, (lines ((lines s).2 ++ t)).2) := by
  induction s using lines_induction with
  | rest s h => rw [lines_of_not_mem h, List.nil_append]
  | line l s hl ih =>
    rw [List.append_assoc, List.cons_append, lines_append_newline hl, lines_append_newline hl, ih,
      List.cons_append]

theorem newline_not_mem_rest (s : Str) : newline ∉ (lines s).2 := by
  induction s using lines_induction with
  | rest s h =>
    rw [lines_of_not_mem h]
    exact h
  | line l s hl ih =>
    rw [lines_append_newline hl]
    exact ih

theorem lines_eq_nil : (lines s).1 = [] ↔ newline ∉ s := by
  rcases exists_newline s with hnone | ⟨l, t, rfl, hl⟩
  · rw [lines_of_not_mem hnone]
    exact iff_of_true rfl hnone
  · rw [lines_append_newline hl]
    refine iff_of_false (List.cons_ne_nil _ _) fun h => h ?_
    exact List.mem_append_right _ List.mem_cons_self

/-- Lines with their newlines. -/
def unlines (ls : List Str) : Str := ls.flatMap (· ++ [newline])

theorem unlines_cons (l : Str) (ls : List Str) :
    unlines (l :: ls) = l ++ newline :: unlines ls := by
  unfold unlines
  rw [List.flatMap_cons, List.append_assoc]
  rfl

theorem unlines_append (ls ls' : List Str) : unlines (ls ++ ls') = unlines ls ++ unlines ls' :=
  List.flatMap_append

theorem unlines_lines (s : Str) : unlines (lines s).1 ++ (lines s).2 = s := by
  induction s using lines_induction with
  | rest s h =>
    rw [lines_of_not_mem h]
    rfl
  | line l s hl ih =>
    rw [lines_append_newline hl, unlines_cons, List.append_assoc, List.cons_append, ih]

/-- What `grep` should write: the lines that match. -/
noncomputable def matching (pattern : Str) (ls : List Str) : List Str :=
  open Classical in ls.filter fun l => (readPattern pattern).Matches l

theorem matching_append (pattern : Str) (ls ls' : List Str) :
    matching pattern (ls ++ ls') = matching pattern ls ++ matching pattern ls' :=
  List.filter_append ..

/-! ### The inner loop -/

section Inner

variable {buf : Memory} {p rounds : Nat} {pattern : Str}

theorem cstring_eq (h : buf.HasString p s) (hnul : 0 ∉ s) (hrounds : s.length < rounds) :
    cstring buf rounds p = some s := by
  induction s generalizing p rounds with
  | nil =>
    obtain ⟨rounds, rfl⟩ := Nat.exists_eq_succ_of_ne_zero (Nat.ne_zero_of_lt hrounds)
    rw [cstring, if_pos (show buf p = 0 from h.2)]
  | cons x s ih =>
    obtain ⟨rounds, rfl⟩ := Nat.exists_eq_succ_of_ne_zero (Nat.ne_zero_of_lt hrounds)
    obtain ⟨hx, hrest⟩ := Memory.hasString_cons.mp h
    have hx0 : buf p ≠ 0 := fun h0 => hnul (List.mem_cons.mpr (Or.inl (h0.symm.trans hx)))
    rw [cstring, if_neg hx0, ih hrest (fun hm => hnul (List.mem_cons_of_mem x hm))
      (Nat.lt_of_succ_lt_succ hrounds), hx]
    rfl

/-- The first line, with its newline replaced. -/
theorem hasString_line (h : buf.HasString p (l ++ newline :: t)) :
    (buf.put (p + l.length) 0).HasString p l ∧
      (∀ v, (buf.put (p + l.length) v).HasString (p + l.length + 1) t) ∧
      (buf.put (p + l.length) newline).bytes p (l.length + 1) = l ++ [newline] := by
  obtain ⟨hl, hrest⟩ := Memory.hasString_append.mp h
  obtain ⟨hnl, ht⟩ := Memory.hasString_cons.mp hrest
  have hbytes : ∀ v, (buf.put (p + l.length) v).bytes p l.length = l := by
    intro v
    refine (Memory.bytes_congr fun i hi => ?_).trans hl
    exact Memory.put_of_ne _ _ (by omega)
  refine ⟨⟨hbytes 0, Memory.put_self ..⟩, fun v => ?_, ?_⟩
  · refine ht.congr fun i _ => ?_
    exact Memory.put_of_ne _ _ (by omega)
  · rw [Memory.bytes_append, hbytes]
    congr 1
    exact congrArg (· :: []) (Memory.put_self ..)

/-- The loop writes the lines that match, stops at what is left after the last
newline and leaves that in the buffer. -/
theorem grepLines_spec (hpattern : 0 ∉ pattern) (h : buf.HasString p s) (hnul : 0 ∉ s)
    (hrounds : pattern.length + s.length + 2 < rounds) :
    ∃ buf', grepLines pattern rounds buf p =
        some (unlines (matching pattern (lines s).1), buf', p + (unlines (lines s).1).length) ∧
      buf'.HasString (p + (unlines (lines s).1).length) (lines s).2 := by
  induction s using lines_induction generalizing buf p rounds with
  | rest s hs =>
    obtain ⟨rounds, rfl⟩ := Nat.exists_eq_succ_of_ne_zero (Nat.ne_zero_of_lt hrounds)
    rw [lines_of_not_mem hs, grepLines, strchr_of_not_mem h hnul hs (by omega)]
    exact ⟨buf, rfl, h⟩
  | line l t hl ih =>
    obtain ⟨rounds, rfl⟩ := Nat.exists_eq_succ_of_ne_zero (Nat.ne_zero_of_lt hrounds)
    have hnull : 0 ∉ l := fun hm => hnul (List.mem_append_left _ hm)
    have hnult : 0 ∉ t := fun hm => hnul (List.mem_append_right _ (List.mem_cons_of_mem _ hm))
    have hlen : (l ++ newline :: t).length = l.length + t.length + 1 := by
      rw [List.length_append, List.length_cons, Nat.add_assoc]
    obtain ⟨hstring, hrest, hbytes⟩ := hasString_line h
    obtain ⟨b, hmatch, hb⟩ := matchText_decides hpattern hnull
      (show pattern.length + l.length + 1 < rounds by omega)
    have hnext : ∀ v, ∃ buf',
        grepLines pattern rounds (buf.put (p + l.length) v) (p + l.length + 1) =
          some (unlines (matching pattern (lines t).1), buf',
            p + (unlines (lines (l ++ newline :: t)).1).length) ∧
        buf'.HasString (p + (unlines (lines (l ++ newline :: t)).1).length) (lines t).2 := by
      intro v
      have hend : p + (unlines (lines (l ++ newline :: t)).1).length =
          p + l.length + 1 + (unlines (lines t).1).length := by
        rw [lines_append_newline hl, unlines_cons, List.length_append, List.length_cons]
        omega
      rw [hend]
      exact ih (hrest v) hnult (by omega)
    rw [grepLines, strchr_of_append h hnull hl (by decide) (by omega)]
    simp only [Option.bind_eq_bind, Option.bind_some,
      cstring_eq hstring hnull (show _ < rounds by omega), hmatch]
    cases b with
    | true =>
      obtain ⟨buf', hrun, hbuf'⟩ := hnext newline
      refine ⟨buf', ?_, ?_⟩
      · rw [if_pos rfl, Memory.put_put, hrun]
        simp only [Option.bind_some, Option.pure_def]
        rw [show p + l.length + 1 - p = l.length + 1 by omega, hbytes,
          lines_append_newline hl]
        simp [matching, hb.mp rfl, unlines_cons]
      · rw [lines_append_newline hl] at hbuf' ⊢
        exact hbuf'
    | false =>
      have hno : ¬ (readPattern pattern).Matches l := fun hm => Bool.false_ne_true (hb.mpr hm)
      obtain ⟨buf', hrun, hbuf'⟩ := hnext 0
      refine ⟨buf', ?_, ?_⟩
      · rw [if_neg Bool.false_ne_true, hrun, lines_append_newline hl]
        simp [matching, hno]
      · rw [lines_append_newline hl] at hbuf' ⊢
        exact hbuf'

end Inner

/-! ### The outer loop -/

/-- What stays in the buffer when `s` was in it. -/
def kept (s : Str) : Str := if newline ∈ s then (lines s).2 else []

/-- The lines that `grep` gets to see. -/
def seen : Str → List Str → List Str
  | _, [] => []
  | carry, piece :: pieces => (lines (carry ++ piece)).1 ++ seen (kept (carry ++ piece)) pieces

/-- How much each `read` asks for. -/
def asks : Str → List Str → List Nat
  | carry, [] => [BUFSIZE - carry.length - 1]
  | carry, piece :: pieces => (BUFSIZE - carry.length - 1) :: asks (kept (carry ++ piece)) pieces

section Outer

variable {buf : Memory} {rounds : Nat} {pattern carry piece : Str} {pieces : List Str}

theorem store_apply (m : Memory) (a : Nat) (piece : Str) (x : Nat) : store m a piece x =
    if a ≤ x ∧ x < a + piece.length then piece.getD (x - a) 0 else m x := rfl

theorem bytes_store (m : Memory) (a : Nat) (piece : Str) :
    (store m a piece).bytes a piece.length = piece := by
  unfold Memory.bytes
  apply List.ext_getElem
  · simp
  · intro i hi hi'
    rw [List.getElem_map, List.getElem_range', store_apply, Nat.one_mul, if_pos (by omega),
      Nat.add_sub_cancel_left]
    exact (List.getElem_eq_getD 0).symm

/-- The buffer after `read`. -/
theorem hasString_read (piece : Str) (h : buf.bytes 0 carry.length = carry) :
    ((store buf carry.length piece).put (carry.length + piece.length) 0).HasString 0
      (carry ++ piece) := by
  rw [Memory.hasString_append, Nat.zero_add]
  refine ⟨?_, ?_, Memory.put_self ..⟩
  · refine (Memory.bytes_congr fun i hi => ?_).trans h
    rw [Memory.put_of_ne _ _ (by omega), store_apply, if_neg (by omega)]
  · refine (Memory.bytes_congr fun i hi => ?_).trans (bytes_store buf carry.length piece)
    exact Memory.put_of_ne _ _ (by omega)

/-- The buffer after `memmove`. -/
theorem bytes_memmove {p : Nat} (h : buf.HasString p s) :
    (memmove s.length buf 0 p : Memory).bytes 0 s.length = s := by
  refine Eq.trans ?_ h.1
  unfold Memory.bytes
  apply List.ext_getElem
  · simp
  · intro i hi hi'
    rw [List.length_map, List.length_range'] at hi
    rw [List.getElem_map, List.getElem_map, List.getElem_range', List.getElem_range', Nat.one_mul,
      memmove_apply (Nat.zero_le p), if_pos (by omega), Nat.zero_add, Nat.sub_zero]

theorem unlines_eq_nil : unlines ls = [] ↔ ls = [] := by
  cases ls with
  | nil => exact iff_of_true rfl rfl
  | cons l ls =>
    rw [unlines_cons]
    exact iff_of_false (by simp) (List.cons_ne_nil l ls)

theorem mem_of_mem_kept {x : UInt8} (h : x ∈ kept s) : x ∈ s := by
  unfold kept at h
  split at h
  · rw [← unlines_lines s]
    exact List.mem_append_right _ h
  · cases h

theorem shift_spec (h : buf.HasString (unlines (lines s).1).length (lines s).2) :
    ∃ buf', shift buf s.length (unlines (lines s).1).length = (buf', (kept s).length) ∧
      Memory.bytes buf' 0 (kept s).length = kept s := by
  have hlen := congrArg List.length (unlines_lines s)
  rw [List.length_append] at hlen
  unfold shift kept
  by_cases hnl : newline ∈ s
  · have hp : (unlines (lines s).1).length ≠ 0 := by
      rw [Ne, List.length_eq_zero_iff, unlines_eq_nil, lines_eq_nil]
      exact fun h => h hnl
    have hrest : s.length - (unlines (lines s).1).length = (lines s).2.length := by omega
    rw [if_neg hp, if_pos (by omega), if_pos hnl, hrest]
    exact ⟨_, rfl, bytes_memmove h⟩
  · have hp : (unlines (lines s).1).length = 0 := by
      rw [List.length_eq_zero_iff, unlines_eq_nil, lines_eq_nil]
      exact hnl
    rw [if_pos hp, if_neg (Nat.lt_irrefl 0), if_neg hnl]
    exact ⟨buf, rfl, rfl⟩

theorem grepLoop_spec (hpattern : 0 ∉ pattern) (hpieces : ∀ piece ∈ pieces, piece ≠ [] ∧ 0 ∉ piece)
    (hfits : ∀ t ∈ pieces.zip (asks carry pieces), t.1.length ≤ t.2)
    (hbuf : buf.bytes 0 carry.length = carry) (hcarry : 0 ∉ carry)
    (hrounds : pattern.length + BUFSIZE + 2 < rounds) :
    grepLoop pattern rounds pieces buf carry.length =
      some (unlines (matching pattern (seen carry pieces)), asks carry pieces) := by
  induction pieces generalizing carry buf with
  | nil => rfl
  | cons piece pieces ih =>
    obtain ⟨hne, hnul⟩ := hpieces piece List.mem_cons_self
    have hpos := List.length_pos_iff.mpr hne
    have hfit := hfits (piece, BUFSIZE - carry.length - 1) List.mem_cons_self
    dsimp only at hfit
    have hall : 0 ∉ carry ++ piece := fun hm => (List.mem_append.mp hm).elim hcarry hnul
    have hlen : (carry ++ piece).length = carry.length + piece.length := List.length_append
    obtain ⟨buf', hrun, hbuf'⟩ := grepLines_spec hpattern (hasString_read piece hbuf) hall
      (show pattern.length + (carry ++ piece).length + 2 < rounds by omega)
    rw [Nat.zero_add] at hrun hbuf'
    obtain ⟨buf'', hshift, hkept⟩ := shift_spec hbuf'
    rw [hlen] at hshift
    have hnext : ∀ x ∈ kept (carry ++ piece), x ∈ carry ++ piece := fun x hx => mem_of_mem_kept hx
    have hloop := ih (fun q hq => hpieces q (List.mem_cons_of_mem _ hq))
      (fun t ht => hfits t (List.mem_cons_of_mem _ ht)) hkept fun hm => hall (hnext 0 hm)
    rw [grepLoop, if_neg hne, if_neg (by omega)]
    simp only [hrun, Option.bind_eq_bind, Option.bind_some, hshift, hloop, Option.pure_def]
    rw [seen, matching_append, unlines_append]
    rfl

/-! ### Which lines are lost -/

/-- No line goes on after a piece without a newline. -/
def NoneLost (pieces : List Str) : Prop := pieces.Pairwise fun a b => newline ∈ b → newline ∈ a

instance (pieces : List Str) : Decidable (NoneLost pieces) :=
  inferInstanceAs (Decidable (List.Pairwise _ _))

theorem kept_of_mem (h : newline ∈ s) : kept s = (lines s).2 := if_pos h

theorem kept_of_not_mem (h : newline ∉ s) : kept s = [] := if_neg h

theorem noneLost_cons : NoneLost (piece :: pieces) ↔
    (newline ∈ pieces.flatten → newline ∈ piece) ∧ NoneLost pieces := by
  unfold NoneLost
  rw [List.pairwise_cons]
  refine and_congr_left fun _ => ?_
  constructor
  · intro h hmem
    obtain ⟨b, hb, hnl⟩ := List.mem_flatten.mp hmem
    exact h b hb hnl
  · intro h b hb hnl
    exact h (List.mem_flatten.mpr ⟨b, hb, hnl⟩)

theorem noneLost_of_not_mem (h : newline ∉ pieces.flatten) : NoneLost pieces := by
  induction pieces with
  | nil => exact List.Pairwise.nil
  | cons piece pieces ih =>
    have hrest : newline ∉ pieces.flatten := fun hm => h (List.mem_append_right _ hm)
    exact noneLost_cons.mpr ⟨fun hm => absurd hm hrest, ih hrest⟩

/-- After a piece with a newline, the rest of its line goes on. -/
theorem seen_of_mem (h : newline ∈ piece)
    (hrest : seen (lines (carry ++ piece)).2 pieces =
      (lines ((lines (carry ++ piece)).2 ++ pieces.flatten)).1) :
    seen carry (piece :: pieces) = (lines (carry ++ (piece :: pieces).flatten)).1 := by
  rw [seen, kept_of_mem (List.mem_append_right _ h), hrest, List.flatten_cons, ← List.append_assoc,
    lines_append (carry ++ piece)]

theorem seen_eq (hcarry : newline ∉ carry) (h : NoneLost pieces) :
    seen carry pieces = (lines (carry ++ pieces.flatten)).1 := by
  induction pieces generalizing carry with
  | nil => rw [List.flatten_nil, List.append_nil, lines_of_not_mem hcarry, seen]
  | cons piece pieces ih =>
    obtain ⟨hhead, hrest⟩ := noneLost_cons.mp h
    by_cases hnl : newline ∈ piece
    · exact seen_of_mem hnl (ih (newline_not_mem_rest _) hrest)
    · -- no newline comes after this piece either
      have hno : newline ∉ pieces.flatten := fun hm => hnl (hhead hm)
      have hboth : newline ∉ carry ++ piece := fun hm => (List.mem_append.mp hm).elim hcarry hnl
      have hall : newline ∉ carry ++ (piece :: pieces).flatten := by
        rw [List.flatten_cons, ← List.append_assoc]
        exact fun hm => (List.mem_append.mp hm).elim hboth hno
      rw [seen, kept_of_not_mem hboth, ih List.not_mem_nil hrest, lines_of_not_mem hboth,
        List.nil_append, List.nil_append, lines_of_not_mem hno, lines_of_not_mem hall]

/-- Otherwise less is seen than there is. -/
theorem seen_lt (hpieces : ∀ piece ∈ pieces, piece ≠ []) (hcarry : newline ∉ carry)
    (h : ¬ NoneLost pieces) :
    (unlines (seen carry pieces)).length <
      (unlines (lines (carry ++ pieces.flatten)).1).length := by
  induction pieces generalizing carry with
  | nil => exact absurd List.Pairwise.nil h
  | cons piece pieces ih =>
    have hrest := fun q hq => hpieces q (List.mem_cons_of_mem piece hq)
    by_cases hnl : newline ∈ piece
    · have hlost : ¬ NoneLost pieces := fun hn => h (noneLost_cons.mpr ⟨fun _ => hnl, hn⟩)
      have hlt := ih hrest (newline_not_mem_rest (carry ++ piece)) hlost
      rw [seen, kept_of_mem (List.mem_append_right _ hnl), List.flatten_cons, ← List.append_assoc,
        lines_append (carry ++ piece), unlines_append, unlines_append, List.length_append,
        List.length_append]
      omega
    · have hboth : newline ∉ carry ++ piece := fun hm => (List.mem_append.mp hm).elim hcarry hnl
      -- a later piece has the end of the line that this one begins
      have hmem : newline ∈ pieces.flatten := by
        by_contra hno
        exact h (noneLost_cons.mpr ⟨fun hm => absurd hm hno, noneLost_of_not_mem hno⟩)
      have hle : (unlines (seen [] pieces)).length ≤ (unlines (lines pieces.flatten).1).length := by
        by_cases hn : NoneLost pieces
        · rw [seen_eq List.not_mem_nil hn, List.nil_append]
        · exact Nat.le_of_lt (ih hrest List.not_mem_nil hn)
      refine Nat.lt_of_le_of_lt ?_ (Nat.lt_of_le_of_lt hle ?_)
      · rw [seen, kept_of_not_mem hboth, lines_of_not_mem hboth, List.nil_append]
      · rcases exists_newline pieces.flatten with hno | ⟨l, t, heq, hl⟩
        · exact absurd hmem hno
        · have hpos := List.length_pos_iff.mpr (hpieces piece List.mem_cons_self)
          have hfirst : newline ∉ carry ++ piece ++ l := fun hm =>
            (List.mem_append.mp hm).elim hboth hl
          rw [List.flatten_cons, heq, ← List.append_assoc, ← List.append_assoc,
            lines_append_newline hfirst, lines_append_newline hl, unlines_cons, unlines_cons]
          simp only [List.length_append]
          omega

theorem matching_nil (ls : List Str) : matching [] ls = ls := by
  unfold matching
  rw [List.filter_eq_self]
  intro l _
  have hmatch : (readPattern []).Matches l :=
    ⟨[], [], l, rfl, rfl, fun _ => rfl, fun h => absurd h Bool.false_ne_true⟩
  simp [hmatch]

end Outer

/-- `grep` ends on every split of its input, and it writes the lines that match,
for every pattern, just if no line goes on after a `read` that brought no
newline. -/
theorem grep_exact_iff (buf : Memory) (pieces : List Str)
    (hpieces : ∀ piece ∈ pieces, piece ≠ [] ∧ 0 ∉ piece)
    (hfits : ∀ t ∈ pieces.zip (asks [] pieces), t.1.length ≤ t.2) :
    (∀ pattern rounds, 0 ∉ pattern → pattern.length + BUFSIZE + 2 < rounds →
      ∃ out, grep rounds pattern buf pieces = some (out, asks [] pieces)) ∧
    ((∀ pattern rounds, 0 ∉ pattern → pattern.length + BUFSIZE + 2 < rounds →
      grep rounds pattern buf pieces =
        some (unlines (matching pattern (lines pieces.flatten).1), asks [] pieces)) ↔
      NoneLost pieces) := by
  have hrun : ∀ pattern rounds, 0 ∉ pattern → pattern.length + BUFSIZE + 2 < rounds →
      grep rounds pattern buf pieces =
        some (unlines (matching pattern (seen [] pieces)), asks [] pieces) := by
    intro pattern rounds hpattern hrounds
    exact grepLoop_spec hpattern hpieces hfits rfl List.not_mem_nil hrounds
  refine ⟨fun pattern rounds hpattern hrounds => ⟨_, hrun pattern rounds hpattern hrounds⟩, ?_⟩
  constructor
  · intro h
    by_contra hlost
    have hlt := seen_lt (fun piece hp => (hpieces piece hp).1) List.not_mem_nil hlost
    have hall := h [] (BUFSIZE + 3) List.not_mem_nil (by rw [List.length_nil]; omega)
    rw [hrun [] (BUFSIZE + 3) List.not_mem_nil (by rw [List.length_nil]; omega), Option.some_inj,
      Prod.mk.injEq, matching_nil, matching_nil] at hall
    rw [List.nil_append, hall.1] at hlt
    exact Nat.lt_irrefl _ hlt
  · intro h pattern rounds hpattern hrounds
    rw [hrun pattern rounds hpattern hrounds, seen_eq List.not_mem_nil h, List.nil_append]

/-- The second line is spread over two reads. -/
theorem grep_exact_carried :
    NoneLost [[97, newline, 98], [97, newline, 99]] ∧
      grep 1028 [97] (fun _ => 0) [[97, newline, 98], [97, newline, 99]] =
        some (unlines (matching [97] [[97], [98, 97]]), [1023, 1022, 1022]) := by
  refine ⟨by decide, ?_⟩
  exact (grep_exact_iff (fun _ => 0) [[97, newline, 98], [97, newline, 99]] (by decide)
    (by decide)).2.mpr (by decide) [97] 1028 (by decide) (by decide)

/-- The line `ab` comes in two reads, and `grep a` does not find it. -/
theorem grep_loses_line :
    grep 1028 [97] (fun _ => 0) [[97], [98, newline]] = some ([], asks [] [[97], [98, newline]]) ∧
      unlines (matching [97] (lines [97, 98, newline]).1) = [97, 98, newline] := by
  refine ⟨by decide +kernel, ?_⟩
  have hmatch : (readPattern [97]).Matches [97, 98] :=
    (matchText_eq_true (by decide) (by decide) (show _ < 5 by decide)).mp (by decide +kernel)
  rw [show (lines [97, 98, newline]).1 = [[97, 98]] by decide]
  simp [matching, hmatch, unlines]

end Xv6.Grep
