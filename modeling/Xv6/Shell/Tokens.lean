import Xv6.Shell.Basic

/-!
The token sequence of an input, and what `gettoken` and `peek` do to the tokens
from the cursor on.
-/

namespace Xv6.Shell

open Prog

inductive Tok where
  | bar | amp | semi | lparen | rparen | lt | gt | gtgt
  | word (w : Word)
deriving DecidableEq, Repr

/-- The tokens that are one character. -/
def Tok.ofChar (c : UInt8) : Option Tok :=
  if c = ch '|' then some .bar
  else if c = ch '&' then some .amp
  else if c = ch ';' then some .semi
  else if c = ch '(' then some .lparen
  else if c = ch ')' then some .rparen
  else if c = ch '<' then some .lt
  else if c = ch '>' then some .gt
  else none

/-- The tokens of the characters that stand at position `i` and after it:
blanks separate, two `>` are one token, and a word goes as far as it can. -/
def lex (i : Nat) : List UInt8 → List Tok
  | [] => []
  | c :: cs =>
    if isBlank c then lex (i + 1) cs
    else if c = ch '>' ∧ cs.head? = some (ch '>') then .gtgt :: lex (i + 2) cs.tail
    else
      match Tok.ofChar c with
      | some t => t :: lex (i + 1) cs
      | none =>
        .word ⟨i, i + 1 + (cs.takeWhile isWordChar).length⟩ ::
          lex (i + 1 + (cs.takeWhile isWordChar).length) (cs.dropWhile isWordChar)
termination_by cs => cs.length
decreasing_by
  · simp
  · simp
  · simp
  · exact Nat.lt_succ_of_le (List.dropWhile_sublist isWordChar).length_le

def tokens (s : List UInt8) : List Tok := lex 0 s

/-- The tokens from position `i` on. -/
def tokensFrom (s : List UInt8) (i : Nat) : List Tok := lex i (s.drop i)

/-- What `gettoken` returns for a token. -/
def Tok.code : Tok → UInt8
  | .bar => ch '|'
  | .amp => ch '&'
  | .semi => ch ';'
  | .lparen => ch '('
  | .rparen => ch ')'
  | .lt => ch '<'
  | .gt => ch '>'
  | .gtgt => ch '+'
  | .word _ => ch 'a'

/-- The first character of a token, as far as `peek` is concerned. -/
def Tok.lead : Tok → UInt8
  | .gtgt => ch '>'
  | t => t.code

/-- Is the next token one that begins with one of these characters? -/
def leads (toks : List UInt8) : List Tok → Bool
  | [] => false
  | t :: _ => decide (t.lead ∈ toks)

theorem lex_blanks (i : Nat) (cs : List UInt8) :
    lex (i + (cs.takeWhile isBlank).length) (cs.dropWhile isBlank) = lex i cs := by
  induction cs generalizing i with
  | nil => rfl
  | cons c cs ih =>
    by_cases hc : isBlank c = true
    · rw [List.takeWhile_cons_of_pos hc, List.dropWhile_cons_of_pos hc, List.length_cons, lex,
        if_pos hc, ← ih (i + 1)]
      congr 1
      omega
    · rw [List.takeWhile_cons_of_neg hc, List.dropWhile_cons_of_neg hc]
      rfl

section

variable {s : List UInt8}

theorem drop_scan (p : UInt8 → Bool) (i : Nat) :
    s.drop (scan s p i) = (s.drop i).dropWhile p := by
  unfold scan
  rw [← List.drop_drop]
  have hsplit : (s.drop i).takeWhile p ++ (s.drop i).dropWhile p = s.drop i :=
    List.takeWhile_append_dropWhile
  obtain ⟨front, hfront⟩ : ∃ front, front = (s.drop i).takeWhile p := ⟨_, rfl⟩
  rw [← hfront] at hsplit ⊢
  nth_rewrite 1 [← hsplit]
  exact List.drop_left ..

theorem tokensFrom_scan (i : Nat) : tokensFrom s (scan s isBlank i) = tokensFrom s i := by
  unfold tokensFrom
  rw [drop_scan]
  exact lex_blanks i (s.drop i)

theorem charAt_eq (i : Nat) : charAt s i = (s.drop i).headD 0 := by
  unfold charAt
  rw [List.headD_eq_head?_getD, List.head?_drop, List.getD_eq_getElem?_getD]

/-- No blank where blanks were skipped. -/
theorem not_blank_scan (i : Nat) : isBlank (charAt s (scan s isBlank i)) = false := by
  rw [charAt_eq, drop_scan]
  cases h : (s.drop i).dropWhile isBlank with
  | nil => rfl
  | cons c cs =>
    have hc := List.head?_dropWhile_not isBlank (s.drop i)
    rw [h] at hc
    simpa using hc

/-- The one-character tokens that `gettoken` knows at once. -/
theorem ofChar_of_mem {c : UInt8} (hc : c ∈ [ch '|', ch '(', ch ')', ch ';', ch '&', ch '<']) :
    ∃ t, Tok.ofChar c = some t ∧ t.code = c ∧ t.lead = t.code ∧ ∀ w, t ≠ .word w := by
  simp only [List.mem_cons, List.not_mem_nil, or_false] at hc
  rcases hc with rfl | rfl | rfl | rfl | rfl | rfl
  · exact ⟨.bar, by decide, rfl, rfl, by simp⟩
  · exact ⟨.lparen, by decide, rfl, rfl, by simp⟩
  · exact ⟨.rparen, by decide, rfl, rfl, by simp⟩
  · exact ⟨.semi, by decide, rfl, rfl, by simp⟩
  · exact ⟨.amp, by decide, rfl, rfl, by simp⟩
  · exact ⟨.lt, by decide, rfl, rfl, by simp⟩

theorem ofChar_eq_none {c : UInt8} (hgt : c ≠ ch '>')
    (hc : c ∉ [ch '|', ch '(', ch ')', ch ';', ch '&', ch '<']) :
    Tok.ofChar c = none ∧ c ∉ symbols := by
  simp only [List.mem_cons, List.not_mem_nil, or_false, not_or] at hc
  obtain ⟨h1, h2, h3, h4, h5, h6⟩ := hc
  constructor
  · unfold Tok.ofChar
    rw [if_neg h1, if_neg h5, if_neg h4, if_neg h2, if_neg h3, if_neg h6, if_neg hgt]
  · simp [symbols, h1, h2, h3, h4, h5, h6, hgt]

variable {q : Nat} {ts : List Tok}

/-- A token at a position where blanks were skipped. -/
theorem tokenAt_spec (hz : 0 ∉ s) (hq : isBlank (charAt s q) = false) :
    (tokensFrom s q = [] ∧ (tokenAt s q).1 = 0 ∧ charAt s q = 0) ∨
      ∃ t, tokensFrom s q = t :: tokensFrom s (tokenAt s q).2 ∧ (tokenAt s q).1 = t.code ∧
        (∀ w, t = .word w → w = ⟨q, (tokenAt s q).2⟩) ∧ charAt s q ≠ 0 ∧
        (charAt s q = t.lead ∨ charAt s q ∉ symbols ∧ t.lead ∉ symbols) := by
  have hchar := charAt_eq (s := s) q
  have hnext : s.drop (q + 1) = (s.drop q).tail := List.tail_drop.symm
  cases hrest : s.drop q with
  | nil =>
    have h0 : charAt s q = 0 := by rw [hchar, hrest]; rfl
    refine Or.inl ⟨?_, ?_, h0⟩
    · unfold tokensFrom
      rw [hrest, lex]
    · unfold tokenAt
      rw [if_pos h0]
  | cons c cs =>
    rw [hrest, List.headD_cons] at hchar
    rw [hrest, List.tail_cons] at hnext
    have hc0 : c ≠ 0 := by
      rintro rfl
      exact hz (List.mem_of_mem_drop (hrest ▸ List.mem_cons_self))
    rw [hchar] at hq
    have hblank : ¬ isBlank c = true := by rw [hq]; exact Bool.false_ne_true
    right
    by_cases hgt : c = ch '>'
    · have hsix : ch '>' ∉ [ch '|', ch '(', ch ')', ch ';', ch '&', ch '<'] := by decide
      have hsecond := charAt_eq (s := s) (q + 1)
      rw [hnext] at hsecond
      by_cases happend : charAt s (q + 1) = ch '>'
      · have hhead : cs.head? = some (ch '>') := by
          rw [happend] at hsecond
          cases cs with
          | nil => exact absurd hsecond (by decide)
          | cons d ds => exact congrArg some hsecond.symm
        have hdrop : s.drop (q + 2) = cs.tail := by
          rw [← hnext]
          exact List.tail_drop.symm
        have htok : tokenAt s q = (ch '+', q + 2) := by
          unfold tokenAt
          rw [hchar, if_neg hc0, hgt, if_neg hsix, if_pos rfl, if_pos happend]
        have hlex : lex q (c :: cs) = .gtgt :: lex (q + 2) cs.tail := by
          rw [lex, if_neg hblank, if_pos ⟨hgt, hhead⟩]
        rw [htok, tokensFrom, hrest, hlex, tokensFrom, hdrop]
        exact ⟨.gtgt, rfl, rfl, by simp, by rwa [hchar], Or.inl (hchar.trans hgt)⟩
      · have hhead : ¬ (c = ch '>' ∧ cs.head? = some (ch '>')) := by
          rintro ⟨-, hh⟩
          apply happend
          rw [hsecond]
          cases cs with
          | nil => cases hh
          | cons d ds => exact Option.some.inj hh
        have htok : tokenAt s q = (ch '>', q + 1) := by
          unfold tokenAt
          rw [hchar, if_neg hc0, hgt, if_neg hsix, if_pos rfl, if_neg happend]
        have hlex : lex q (c :: cs) = .gt :: lex (q + 1) cs := by
          rw [lex, if_neg hblank, if_neg hhead, hgt]
          rfl
        rw [htok, tokensFrom, hrest, hlex, tokensFrom, hnext]
        exact ⟨.gt, rfl, rfl, by simp, by rwa [hchar], Or.inl (hchar.trans hgt)⟩
    · by_cases hmem : c ∈ [ch '|', ch '(', ch ')', ch ';', ch '&', ch '<']
      · obtain ⟨t, ht, hcode, hlead, hword⟩ := ofChar_of_mem hmem
        have htok : tokenAt s q = (c, q + 1) := by
          unfold tokenAt
          rw [hchar, if_neg hc0, if_pos hmem]
        have hlex : lex q (c :: cs) = t :: lex (q + 1) cs := by
          rw [lex, if_neg hblank, if_neg (fun h => hgt h.1), ht]
        rw [htok, tokensFrom, hrest, hlex, tokensFrom, hnext]
        refine ⟨t, rfl, hcode.symm, fun w hw => absurd hw (hword w), by rwa [hchar], Or.inl ?_⟩
        rw [hchar, hlead, hcode]
      · obtain ⟨hnone, hsym⟩ := ofChar_eq_none hgt hmem
        have hwc : isWordChar c = true := by simp [isWordChar, hq, hsym]
        have hscan : scan s isWordChar q = q + 1 + (cs.takeWhile isWordChar).length := by
          unfold scan
          rw [hrest, List.takeWhile_cons_of_pos hwc, List.length_cons]
          omega
        have hdrop : s.drop (scan s isWordChar q) = cs.dropWhile isWordChar := by
          rw [drop_scan, hrest, List.dropWhile_cons_of_pos hwc]
        have htok : tokenAt s q = (ch 'a', scan s isWordChar q) := by
          unfold tokenAt
          rw [hchar, if_neg hc0, if_neg hmem, if_neg hgt]
        have hlex : lex q (c :: cs) = .word ⟨q, scan s isWordChar q⟩ ::
            lex (scan s isWordChar q) (cs.dropWhile isWordChar) := by
          rw [lex, if_neg hblank, if_neg (fun h => hgt h.1), hnone, hscan]
        rw [htok, tokensFrom, hrest, hlex, tokensFrom, hdrop]
        refine ⟨.word ⟨q, scan s isWordChar q⟩, rfl, rfl, fun w hw => (Tok.word.inj hw).symm,
          by rwa [hchar], Or.inr ⟨by rwa [hchar], ?_⟩⟩
        change ch 'a' ∉ symbols
        decide

/-- The character that `peek` looks at is the first one of the next token. -/
theorem charAt_lead (hz : 0 ∉ s) (hq : isBlank (charAt s q) = false) {toks : List UInt8}
    (htoks : toks ⊆ symbols) :
    decide (charAt s q ≠ 0 ∧ charAt s q ∈ toks) = leads toks (tokensFrom s q) := by
  rcases tokenAt_spec hz hq with ⟨hnil, -, h0⟩ | ⟨t, ht, -, -, h0, hlead⟩
  · rw [hnil, h0]
    simp [leads]
  · rw [ht]
    rw [leads]
    rcases hlead with hlead | ⟨hchar, hlead⟩
    · rw [← hlead]
      simp [h0]
    · rw [decide_eq_false fun hc => hchar (htoks hc.2), decide_eq_false fun hc => hlead (htoks hc)]

theorem scan_le (p : UInt8 → Bool) {i : Nat} (hi : i ≤ s.length) : scan s p i ≤ s.length := by
  unfold scan
  have hlen := (List.takeWhile_sublist p (l := s.drop i)).length_le
  rw [List.length_drop] at hlen
  omega

theorem lt_of_charAt {i : Nat} (h : charAt s i ≠ 0) : i < s.length := by
  by_contra hge
  apply h
  unfold charAt
  rw [List.getD_eq_getElem?_getD, List.getElem?_eq_none (Nat.not_lt.mp hge)]
  rfl

theorem tokenAt_le (hq : q ≤ s.length) : (tokenAt s q).2 ≤ s.length := by
  unfold tokenAt
  by_cases h0 : charAt s q = 0
  · rw [if_pos h0]
    exact hq
  · rw [if_neg h0]
    have hlt := lt_of_charAt h0
    split
    · exact hlt
    · split
      · split
        · next hgt => exact lt_of_charAt (by rw [hgt]; decide)
        · exact hlt
      · exact scan_le _ hq

/-! ### `gettoken` and `peek` -/

/-- In a string without a zero byte, the cursor stands before these tokens. -/
structure At (s : List UInt8) (i : Nat) (ts : List Tok) : Prop where
  no_zero : 0 ∉ s
  le : i ≤ s.length
  toks : tokensFrom s i = ts

theorem At.scan {i : Nat} (h : At s i ts) : At s (Shell.scan s isBlank i) ts :=
  ⟨h.no_zero, scan_le _ h.le, (tokensFrom_scan i).trans h.toks⟩

variable {i : Nat} {α : Type} {f : UInt8 × Word → ParseM α} {Q : α → Nat → Prop}
  {E : Panic → Nat → Prop}

theorem At.wp_gettoken_nil (h : At s i []) (hQ : ∀ w i', At s i' [] → wp (f (0, w)) Q E i') :
    wp (gettoken s >>= f) Q E i := by
  unfold gettoken
  simp only [wp_bind, wp_gets, wp_modify, wp_pure]
  have hq := h.scan
  rcases tokenAt_spec h.no_zero (not_blank_scan i) with ⟨-, hcode, h0⟩ | ⟨t, ht, -⟩
  · have hsame : (tokenAt s (Shell.scan s isBlank i)).2 = Shell.scan s isBlank i := by
      unfold tokenAt
      rw [if_pos h0]
    rw [hcode, hsame]
    exact hQ _ _ hq.scan
  · rw [hq.toks] at ht
    cases ht

theorem At.wp_gettoken_cons {t : Tok} (h : At s i (t :: ts))
    (hQ : ∀ w i', At s i' ts → (∀ w', t = .word w' → w' = w) → wp (f (t.code, w)) Q E i') :
    wp (gettoken s >>= f) Q E i := by
  unfold gettoken
  simp only [wp_bind, wp_gets, wp_modify, wp_pure]
  have hq := h.scan
  rcases tokenAt_spec h.no_zero (not_blank_scan i) with ⟨hnil, -⟩ | ⟨t', ht, hcode, hword, -⟩
  · rw [hq.toks] at hnil
    cases hnil
  · rw [hq.toks] at ht
    obtain ⟨rfl, hts⟩ := List.cons.inj ht
    rw [hcode]
    exact hQ _ _ (At.scan ⟨h.no_zero, tokenAt_le hq.le, hts.symm⟩) hword

theorem At.wp_peek (h : At s i ts) {toks : List UInt8} (htoks : toks ⊆ symbols)
    {f : Bool → ParseM α} (hQ : ∀ i', At s i' ts → wp (f (leads toks ts)) Q E i') :
    wp (peek s toks >>= f) Q E i := by
  unfold peek
  simp only [wp_bind, wp_gets, wp_modify, wp_pure]
  rw [charAt_lead h.no_zero (not_blank_scan i) htoks, h.scan.toks]
  exact hQ _ h.scan

/-- At the end of the tokens `peek` moves the cursor to the end of the input. -/
theorem At.scan_eq_length_iff (h : At s i ts) :
    Shell.scan s isBlank i = s.length ↔ ts = [] := by
  have hq := h.scan
  constructor
  · intro heq
    rw [← hq.toks, heq, tokensFrom, List.drop_length, lex]
  · rintro rfl
    rcases tokenAt_spec h.no_zero (not_blank_scan i) with ⟨-, -, h0⟩ | ⟨t, ht, -⟩
    · by_contra hne
      have hlt : Shell.scan s isBlank i < s.length := Nat.lt_of_le_of_ne hq.le hne
      unfold charAt at h0
      rw [List.getD_eq_getElem?_getD, List.getElem?_eq_getElem hlt, Option.getD_some] at h0
      exact h.no_zero (h0 ▸ List.getElem_mem hlt)
    · rw [hq.toks] at ht
      cases ht

end

end Xv6.Shell
