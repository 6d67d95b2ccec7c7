import Mathlib.Computability.Language

/-!
The matcher of `grep`. A `char*` is the list of the characters up to the NUL that
ends the string. The three functions run for a number of rounds, and have no
result if they need more.
-/

namespace Xv6.Grep

abbrev Str := List UInt8

/-- `s[i]` -/
def char (s : Str) (i : Nat) : UInt8 := s.getD i 0

def caret : UInt8 := 94
def dollar : UInt8 := 36
def star : UInt8 := 42
def dot : UInt8 := 46

mutual

def matchhere : Nat → Str → Str → Option Bool
  | 0, _, _ => none
  | rounds + 1, re, text =>
    if char re 0 = 0 then
      some true
    else if char re 1 = star then
      matchstar rounds (char re 0) (re.drop 2) text
    else if char re 0 = dollar ∧ char re 1 = 0 then
      some (char text 0 = 0)
    else if char text 0 ≠ 0 ∧ (char re 0 = dot ∨ char re 0 = char text 0) then
      matchhere rounds (re.drop 1) (text.drop 1)
    else
      some false

def matchstar : Nat → UInt8 → Str → Str → Option Bool
  | 0, _, _, _ => none
  | rounds + 1, c, re, text => do
    if ← matchhere rounds re text then
      return true
    else if char text 0 ≠ 0 ∧ (char text 0 = c ∨ c = dot) then
      matchstar rounds c re (text.drop 1)
    else
      return false

end

/-- The loop of `match`. -/
def matchLoop : Nat → Str → Str → Option Bool
  | 0, _, _ => none
  | rounds + 1, re, text => do
    if ← matchhere rounds re text then
      return true
    else if char text 0 ≠ 0 then
      matchLoop rounds re (text.drop 1)
    else
      return false

/-- `match` -/
def matchText (rounds : Nat) (re text : Str) : Option Bool :=
  if char re 0 = caret then matchhere rounds (re.drop 1) text else matchLoop rounds re text

/-! ### Patterns -/

/-- A character, where `.` stands for any, with or without a star. -/
structure Item where
  char : UInt8
  starred : Bool
deriving DecidableEq, Repr

structure Pattern where
  fromStart : Bool
  items : List Item
  toEnd : Bool
deriving DecidableEq, Repr

/-- The items from left to right, and whether a `$` ends them. -/
def readItems : Str → List Item × Bool
  | [] => ([], false)
  | [c] => if c = dollar then ([], true) else ([⟨c, false⟩], false)
  | c :: d :: re =>
    if d = star then (⟨c, true⟩ :: (readItems re).1, (readItems re).2)
    else (⟨c, false⟩ :: (readItems (d :: re)).1, (readItems (d :: re)).2)

def readPattern : Str → Pattern
  | [] => ⟨false, [], false⟩
  | c :: re =>
    if c = caret then ⟨true, (readItems re).1, (readItems re).2⟩
    else ⟨false, (readItems (c :: re)).1, (readItems (c :: re)).2⟩

/-- The characters that `c` stands for, as strings of length one. -/
def single (c : UInt8) : Language UInt8 := {w | ∃ x, w = [x] ∧ (c = dot ∨ c = x)}

def Item.language (i : Item) : Language UInt8 :=
  if i.starred then KStar.kstar (single i.char) else single i.char

def Pattern.language (p : Pattern) : Language UInt8 := (p.items.map Item.language).prod

/-- Some part of the text is in the language, at the start or at the end of the
text if the pattern asks for it. -/
def Pattern.Matches (p : Pattern) (text : Str) : Prop :=
  ∃ before w after, text = before ++ w ++ after ∧ w ∈ p.language ∧
    (p.fromStart = true → before = []) ∧ (p.toEnd = true → after = [])

/-! ### The language of what is left of a pattern -/

/-- The texts that begin with a match of the items. -/
def texts (re : Str) : Language UInt8 :=
  ((readItems re).1.map Item.language).prod * if (readItems re).2 then 1 else ⊤

variable {c d : UInt8} {re text : Str}

variable {L : Language UInt8} {rounds : Nat}

theorem mem_single_mul :
    text ∈ single c * L ↔ ∃ x rest, text = x :: rest ∧ (c = dot ∨ c = x) ∧ rest ∈ L := by
  rw [Language.mem_mul]
  constructor
  · rintro ⟨_, ⟨x, rfl, hx⟩, rest, hrest, rfl⟩
    exact ⟨x, rest, rfl, hx, hrest⟩
  · rintro ⟨x, rest, rfl, hx, hrest⟩
    exact ⟨[x], ⟨x, rfl, hx⟩, rest, hrest, rfl⟩

theorem mem_top (w : Str) : w ∈ (⊤ : Language UInt8) := Set.mem_univ w

theorem mem_top_mul : text ∈ ⊤ * L ↔ text ∈ L ∨ ∃ x rest, text = x :: rest ∧ rest ∈ ⊤ * L := by
  simp only [Language.mem_mul]
  constructor
  · rintro ⟨before, -, w, hw, rfl⟩
    cases before with
    | nil => exact Or.inl hw
    | cons x before => exact Or.inr ⟨x, before ++ w, rfl, before, mem_top _, w, hw, rfl⟩
  · rintro (h | ⟨x, rest, rfl, before, -, w, hw, rfl⟩)
    · exact ⟨[], mem_top _, text, h, rfl⟩
    · exact ⟨x :: before, mem_top _, w, hw, rfl⟩

theorem mem_kstar_mul : text ∈ KStar.kstar (single c) * L ↔ text ∈ L ∨
      ∃ x rest, text = x :: rest ∧ (c = dot ∨ c = x) ∧ rest ∈ KStar.kstar (single c) * L := by
  have hstar : KStar.kstar (single c) * L = L + single c * (KStar.kstar (single c) * L) := by
    calc KStar.kstar (single c) * L = (1 + single c * KStar.kstar (single c)) * L := by
          rw [Language.one_add_self_mul_kstar_eq_kstar]
      _ = L + single c * (KStar.kstar (single c) * L) := by rw [add_mul, one_mul, mul_assoc]
  rw [← mem_single_mul, ← Language.mem_add, ← hstar]

theorem texts_nil : texts [] = ⊤ := one_mul _

theorem texts_dollar : texts [dollar] = 1 := one_mul _

theorem texts_starred : texts (c :: star :: re) = KStar.kstar (single c) * texts re := by
  unfold texts
  rw [readItems, if_pos rfl, List.map_cons, List.prod_cons, mul_assoc]
  rfl

theorem texts_cons (hstar : char re 0 ≠ star) (hend : c ≠ dollar ∨ re ≠ []) :
    texts (c :: re) = single c * texts re := by
  cases re with
  | nil =>
    have hne : c ≠ dollar := hend.resolve_right fun h => h rfl
    unfold texts
    simp [readItems, hne, Item.language]
  | cons d re =>
    have hne : d ≠ star := hstar
    unfold texts
    rw [readItems, if_neg hne, List.map_cons, List.prod_cons, mul_assoc]
    rfl

theorem mem_texts : text ∈ texts re ↔ ∃ w after, text = w ++ after ∧
    w ∈ ((readItems re).1.map Item.language).prod ∧ ((readItems re).2 = true → after = []) := by
  unfold texts
  rw [Language.mem_mul]
  constructor
  · rintro ⟨w, hw, after, hafter, rfl⟩
    refine ⟨w, after, rfl, hw, fun hend => ?_⟩
    rw [if_pos hend] at hafter
    exact hafter
  · rintro ⟨w, after, rfl, hw, hafter⟩
    refine ⟨w, hw, after, ?_, rfl⟩
    split
    · next hend => exact hafter hend
    · exact mem_top after

/-! ### The matcher -/

theorem char_zero_cons (x : UInt8) (s : Str) : char (x :: s) 0 = x := rfl

theorem char_eq_zero (h : 0 ∉ text) : char text 0 = 0 ↔ text = [] := by
  cases text with
  | nil => exact iff_of_true rfl rfl
  | cons x text =>
    refine iff_of_false ?_ (List.cons_ne_nil x text)
    rintro rfl
    exact h List.mem_cons_self

theorem not_mem_drop (h : 0 ∉ text) (n : Nat) : 0 ∉ text.drop n := fun hmem =>
  h (List.mem_of_mem_drop hmem)

/-- The result of a matcher: it has one, and it says whether the text is in `L`. -/
def Decides (r : Option Bool) (text : Str) (L : Language UInt8) : Prop :=
  ∃ b, r = some b ∧ (b = true ↔ text ∈ L)

theorem Decides.of_true (h : text ∈ L) : Decides (some true) text L :=
  ⟨true, rfl, iff_of_true rfl h⟩

theorem Decides.of_false (h : text ∉ L) : Decides (some false) text L :=
  ⟨false, rfl, iff_of_false Bool.false_ne_true h⟩

theorem Decides.congr {r : Option Bool} {t : Str} {M : Language UInt8} (h : Decides r t M)
    (hiff : t ∈ M ↔ text ∈ L) : Decides r text L := by
  obtain ⟨b, hr, hb⟩ := h
  exact ⟨b, hr, hb.trans hiff⟩

/-- One round of a loop that looks for the rest of the pattern first. -/
theorem Decides.orElse {r s : Option Bool} {t : Str} {M : Language UInt8} {p : Prop} [Decidable p]
    (h : Decides r text L) (hnext : p → Decides s t M) (hiff : text ∈ M ↔ text ∈ L ∨ p ∧ t ∈ M) :
    Decides (do if ← r then return true else if p then s else return false) text M := by
  obtain ⟨b, rfl, hb⟩ := h
  cases b with
  | true => exact .of_true (hiff.mpr (Or.inl (hb.mp rfl)))
  | false =>
    have hL : text ∉ L := fun hmem => Bool.false_ne_true (hb.mpr hmem)
    by_cases hp : p
    · have hs := hnext hp
      simp only [Option.bind_eq_bind, Option.bind_some, Bool.false_eq_true, if_false, if_pos hp]
      exact hs.congr (by rw [hiff]; simp [hL, hp])
    · simp only [Option.bind_eq_bind, Option.bind_some, Bool.false_eq_true, if_false, if_neg hp]
      exact .of_false (by rw [hiff]; simp [hL, hp])

theorem matchstar_decides (re : Str)
    (hhere : ∀ n text, 0 ∉ text → re.length + text.length < n →
      Decides (matchhere n re text) text (texts re))
    (htext : 0 ∉ text) (hrounds : re.length + text.length + 1 < rounds) :
    Decides (matchstar rounds c re text) text (KStar.kstar (single c) * texts re) := by
  induction rounds generalizing text with
  | zero => omega
  | succ rounds ih =>
    rw [matchstar]
    refine .orElse (hhere rounds text htext (by omega)) (t := text.drop 1) (fun hp => ?_) ?_
    · have hne : text ≠ [] := fun h => hp.1 ((char_eq_zero htext).mpr h)
      have := List.length_pos_iff.mpr hne
      refine ih (not_mem_drop htext 1) ?_
      rw [List.length_drop]
      omega
    · rw [mem_kstar_mul]
      refine or_congr_right ?_
      cases text with
      | nil => simp [char]
      | cons x rest =>
        have hx : x ≠ 0 := fun h => htext (h ▸ List.mem_cons_self)
        simp only [List.cons.injEq, char_zero_cons, List.drop_one, List.tail_cons]
        constructor
        · rintro ⟨_, _, ⟨rfl, rfl⟩, hc, hrest⟩
          exact ⟨⟨hx, hc.symm.imp_left Eq.symm⟩, hrest⟩
        · rintro ⟨⟨-, hc⟩, hrest⟩
          exact ⟨x, rest, ⟨rfl, rfl⟩, hc.symm.imp_right Eq.symm, hrest⟩

theorem matchhere_decides (hre : 0 ∉ re) (htext : 0 ∉ text)
    (hrounds : re.length + text.length < rounds) :
    Decides (matchhere rounds re text) text (texts re) := by
  -- the pattern gets shorter at every call, also in the loop of `matchstar`
  induction hlen : re.length using Nat.strong_induction_on generalizing re text rounds with
  | _ len ih =>
    subst hlen
    obtain ⟨rounds, rfl⟩ : ∃ n, rounds = n + 1 := ⟨rounds - 1, by omega⟩
    rw [matchhere]
    cases re with
    | nil =>
      rw [if_pos (show char [] 0 = 0 from rfl), texts_nil]
      exact .of_true (mem_top text)
    | cons c re =>
      have hc : c ≠ 0 := fun h => hre (h ▸ List.mem_cons_self)
      have hre' : 0 ∉ re := fun h => hre (List.mem_cons_of_mem c h)
      rw [char_zero_cons, if_neg hc, show char (c :: re) 1 = char re 0 from rfl]
      split
      · next hstar =>
          -- `c*`
          obtain ⟨d, re, rfl⟩ : ∃ d r, re = d :: r := by
            cases re with
            | nil => exact absurd hstar (by decide)
            | cons d r => exact ⟨d, r, rfl⟩
          obtain rfl : d = star := hstar
          rw [texts_starred]
          simp only [List.length_cons] at hrounds ih
          refine matchstar_decides re (fun n t ht hn => ?_) htext (by omega)
          exact ih re.length (by omega) (fun h => hre' (List.mem_cons_of_mem _ h)) ht hn rfl
      · next hstar =>
          split
          · next hend =>
              -- `$` at the end
              obtain ⟨rfl, hnil⟩ := hend
              obtain rfl := (char_eq_zero hre').mp hnil
              rw [texts_dollar]
              exact ⟨_, rfl, by
                rw [decide_eq_true_eq, char_eq_zero htext]
                exact Language.mem_one text |>.symm⟩
          · next hend =>
              rw [texts_cons hstar (by
                rw [char_eq_zero hre'] at hend
                tauto)]
              split
              · next hp =>
                  cases text with
                  | nil => exact absurd rfl hp.1
                  | cons x text =>
                    simp only [List.length_cons] at hrounds ih
                    have ht : 0 ∉ text := fun h => htext (List.mem_cons_of_mem x h)
                    refine (ih re.length (by omega) hre' ht (by omega) rfl).congr ?_
                    rw [mem_single_mul]
                    constructor
                    · intro hmem
                      exact ⟨x, text, rfl, hp.2, hmem⟩
                    · rintro ⟨_, _, h, -, hmem⟩
                      cases h
                      exact hmem
              · next hp =>
                  refine .of_false fun hmem => hp ?_
                  obtain ⟨x, rest, rfl, hx, -⟩ := mem_single_mul.mp hmem
                  exact ⟨fun h => htext (h ▸ List.mem_cons_self), hx⟩

theorem matchLoop_decides (hre : 0 ∉ re) (htext : 0 ∉ text)
    (hrounds : re.length + text.length + 1 < rounds) :
    Decides (matchLoop rounds re text) text (⊤ * texts re) := by
  induction rounds generalizing text with
  | zero => omega
  | succ rounds ih =>
    rw [matchLoop]
    refine .orElse (matchhere_decides hre htext (by omega)) (t := text.drop 1) (fun hp => ?_) ?_
    · have hne : text ≠ [] := fun h => hp ((char_eq_zero htext).mpr h)
      have := List.length_pos_iff.mpr hne
      refine ih (not_mem_drop htext 1) ?_
      rw [List.length_drop]
      omega
    · rw [mem_top_mul]
      refine or_congr_right ?_
      cases text with
      | nil => simp [char]
      | cons x rest =>
        have hx : x ≠ 0 := fun h => htext (h ▸ List.mem_cons_self)
        simp [char_zero_cons, hx]

theorem matches_iff : (readPattern re).Matches text ↔
    if char re 0 = caret then text ∈ texts (re.drop 1) else text ∈ ⊤ * texts re := by
  cases re with
  | nil =>
    rw [if_neg (show char [] 0 ≠ caret by decide), Language.mem_mul]
    constructor
    · rintro ⟨before, w, after, rfl, -⟩
      exact ⟨[], mem_top _, _, texts_nil ▸ mem_top _, rfl⟩
    · intro _
      exact ⟨[], [], text, rfl, rfl, fun _ => rfl, fun h => absurd h Bool.false_ne_true⟩
  | cons c re =>
    rw [char_zero_cons]
    unfold Pattern.Matches Pattern.language
    by_cases hc : c = caret
    · rw [readPattern, if_pos hc, if_pos hc, List.drop_one, List.tail_cons, mem_texts]
      constructor
      · rintro ⟨before, w, after, rfl, hw, hstart, hend⟩
        obtain rfl := hstart rfl
        exact ⟨w, after, rfl, hw, hend⟩
      · rintro ⟨w, after, rfl, hw, hend⟩
        exact ⟨[], w, after, rfl, hw, fun _ => rfl, hend⟩
    · rw [readPattern, if_neg hc, if_neg hc, Language.mem_mul]
      constructor
      · rintro ⟨before, w, after, rfl, hw, -, hend⟩
        exact ⟨before, mem_top _, w ++ after, mem_texts.mpr ⟨w, after, rfl, hw, hend⟩,
          (List.append_assoc _ _ _).symm⟩
      · rintro ⟨before, -, rest, hrest, rfl⟩
        obtain ⟨w, after, rfl, hw, hend⟩ := mem_texts.mp hrest
        exact ⟨before, w, after, (List.append_assoc _ _ _).symm, hw,
          fun h => absurd h Bool.false_ne_true, hend⟩

theorem matchText_decides (hre : 0 ∉ re) (htext : 0 ∉ text)
    (hrounds : re.length + text.length + 1 < rounds) :
    ∃ b, matchText rounds re text = some b ∧ (b = true ↔ (readPattern re).Matches text) := by
  simp only [matches_iff]
  unfold matchText
  split
  · refine matchhere_decides (not_mem_drop hre 1) htext ?_
    rw [List.length_drop]
    omega
  · exact matchLoop_decides hre htext hrounds

theorem matchText_eq_true (hre : 0 ∉ re) (htext : 0 ∉ text)
    (hrounds : re.length + text.length + 1 < rounds) :
    matchText rounds re text = some true ↔ (readPattern re).Matches text := by
  obtain ⟨b, hrun, hb⟩ := matchText_decides hre htext hrounds
  rw [hrun, Option.some_inj, hb]

/-- The three functions end, and `match` says whether the text has a match of the
pattern. -/
theorem match_correct (re text : Str) (hre : 0 ∉ re) (htext : 0 ∉ text) (rounds : Nat)
    (hrounds : re.length + text.length + 1 < rounds) :
    (matchText rounds re text = some true ↔ (readPattern re).Matches text) ∧
      (matchText rounds re text = some false ↔ ¬ (readPattern re).Matches text) ∧
      matchhere rounds re text ≠ none ∧ ∀ c, matchstar rounds c re text ≠ none := by
  obtain ⟨b, hrun, hb⟩ := matchText_decides hre htext hrounds
  obtain ⟨b', hhere, -⟩ := matchhere_decides hre htext (show _ < rounds by omega)
  refine ⟨matchText_eq_true hre htext hrounds, ?_, ?_, fun c => ?_⟩
  · rw [hrun, Option.some_inj, ← hb, Bool.not_eq_true]
  · rw [hhere]
    exact Option.some_ne_none b'
  · obtain ⟨d, hstar, -⟩ := matchstar_decides re
      (fun n t ht hn => matchhere_decides hre ht hn) htext hrounds
    rw [hstar]
    exact Option.some_ne_none d

/-- `^a.*b$` on `axxb`. -/
theorem match_correct_sample :
    matchText 12 [caret, 97, dot, star, 98, dollar] [97, 120, 120, 98] = some true ∧
      (readPattern [caret, 97, dot, star, 98, dollar]).Matches [97, 120, 120, 98] := by
  have hrun : matchText 12 [caret, 97, dot, star, 98, dollar] [97, 120, 120, 98] = some true := by
    decide +kernel
  refine ⟨hrun, ?_⟩
  exact (match_correct _ _ (by decide) (by decide) 12 (by decide)).1.mp hrun

end Xv6.Grep
