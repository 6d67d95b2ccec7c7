import Xv6.Shell.Parser

/-!
What the parsed command's strings are: `nulterminate` writes its zeros at the
ends of words only, and no word goes on where another one ends.
-/

namespace Xv6.Shell

open Prog

/-- The arguments and file names of a command. -/
def Cmd.words : Cmd → List Word
  | .exec args => args
  | .redir cmd file _ _ => cmd.words ++ [file]
  | .pipe left right => left.words ++ right.words
  | .list left right => left.words ++ right.words
  | .back cmd => cmd.words

/-- The characters of a token in the input. -/
def text (s : List UInt8) (w : Word) : List UInt8 := (s.drop w.start).take (w.stop - w.start)

/-- The C string that begins at a position. -/
def cstring (buf : List UInt8) (i : Nat) : List UInt8 := (buf.drop i).takeWhile (· ≠ 0)

/-! ### The words of a tree are tokens of the input -/

variable {ts : List Tok} {rs : List Redir} {c : Cmd} {w : Word} {i : Nat} {cs : List UInt8}

theorem Redirs.file_mem (h : Redirs ts rs) {r : Redir} (hr : r ∈ rs) : .word r.file ∈ ts := by
  induction h with
  | nil => cases hr
  | lt w _ ih | gt w _ ih | gtgt w _ ih =>
    rcases List.mem_cons.mp hr with rfl | hr
    · exact List.mem_cons_of_mem _ List.mem_cons_self
    · exact List.mem_cons_of_mem _ (List.mem_cons_of_mem _ (ih hr))

theorem Args.mem {ws : List Word} (h : Args ts ws rs) :
    (∀ w ∈ ws, .word w ∈ ts) ∧ ∀ r ∈ rs, .word r.file ∈ ts := by
  induction h with
  | nil => exact ⟨fun w hw => (nomatch hw), fun r hr => (nomatch hr)⟩
  | cons w hredirs _ ih =>
    constructor
    · intro w' hw'
      rcases List.mem_cons.mp hw' with rfl | hw'
      · exact List.mem_cons_self
      · exact List.mem_cons_of_mem _ (List.mem_append_right _ (ih.1 w' hw'))
    · intro r hr
      apply List.mem_cons_of_mem
      rcases List.mem_append.mp hr with hr | hr
      · exact List.mem_append_left _ (hredirs.file_mem hr)
      · exact List.mem_append_right _ (ih.2 r hr)

theorem Cmd.mem_words_wrap (h : w ∈ (c.wrap rs).words) : w ∈ c.words ∨ ∃ r ∈ rs, r.file = w := by
  induction rs generalizing c with
  | nil => exact Or.inl h
  | cons r rs ih =>
    rcases ih h with h | ⟨r', hr', hw⟩
    · rcases List.mem_append.mp h with h | h
      · exact Or.inl h
      · exact Or.inr ⟨r, List.mem_cons_self, (List.mem_singleton.mp h).symm⟩
    · exact Or.inr ⟨r', List.mem_cons_of_mem _ hr', hw⟩

theorem Cmd.words_backs (c : Cmd) (n : Nat) : (c.backs n).words = c.words := by
  induction n with
  | zero => rfl
  | succ n ih => exact ih

theorem Derives.word_mem {n : Part} (h : Derives n ts c) (hw : w ∈ c.words) : .word w ∈ ts := by
  induction h with
  | line n _ ih =>
    rw [Cmd.words_backs] at hw
    exact List.mem_append_left _ (ih hw)
  | semi n _ _ ih ih' =>
    rcases List.mem_append.mp hw with hw | hw
    · rw [Cmd.words_backs] at hw
      exact List.mem_append_left _ (List.mem_append_left _ (ih hw))
    · exact List.mem_append_right _ (List.mem_cons_of_mem _ (ih' hw))
  | pipe _ ih => exact ih hw
  | bar _ _ ih ih' =>
    rcases List.mem_append.mp hw with hw | hw
    · exact List.mem_append_left _ (ih hw)
    · exact List.mem_append_right _ (List.mem_cons_of_mem _ (ih' hw))
  | block _ hredirs ih =>
    apply List.mem_cons_of_mem
    rcases Cmd.mem_words_wrap hw with hw | ⟨r, hr, rfl⟩
    · exact List.mem_append_left _ (ih hw)
    · exact List.mem_append_right _ (List.mem_cons_of_mem _ (hredirs.file_mem hr))
  | exec hredirs hargs _ =>
    rcases Cmd.mem_words_wrap hw with hw | ⟨r, hr, rfl⟩
    · exact List.mem_append_right _ (hargs.mem.1 w hw)
    · rcases List.mem_append.mp hr with hr | hr
      · exact List.mem_append_left _ (hredirs.file_mem hr)
      · exact List.mem_append_right _ (hargs.mem.2 r hr)

/-! ### Where words stand -/

/-- A longest run of word characters. -/
structure IsWord (s : List UInt8) (w : Word) : Prop where
  stop_le : w.stop ≤ s.length
  start_lt : w.start < w.stop
  chars : ∀ j, w.start ≤ j → j < w.stop → isWordChar (charAt s j) = true
  next : w.stop < s.length → isWordChar (charAt s w.stop) = false

variable {s : List UInt8}

theorem charAt_drop (h : s.drop i = cs) (m : Nat) : charAt s (i + m) = cs.getD m 0 := by
  unfold charAt
  rw [← h, List.getD_eq_getElem?_getD, List.getD_eq_getElem?_getD, List.getElem?_drop]

theorem drop_tail {c : UInt8} (h : s.drop i = c :: cs) : s.drop (i + 1) = cs := by
  rw [← List.drop_drop, h]
  rfl

theorem getD_takeWhile {p : UInt8 → Bool} {m : Nat} (h : m < (cs.takeWhile p).length) :
    p (cs.getD m 0) = true := by
  induction cs generalizing m with
  | nil => exact absurd h (Nat.not_lt_zero m)
  | cons c cs ih =>
    by_cases hc : p c = true
    · rw [List.takeWhile_cons_of_pos hc] at h
      cases m with
      | zero => exact hc
      | succ m => exact ih (Nat.lt_of_succ_lt_succ h)
    · rw [List.takeWhile_cons_of_neg hc] at h
      exact absurd h (Nat.not_lt_zero m)

theorem getD_length_takeWhile {p : UInt8 → Bool} (h : (cs.takeWhile p).length < cs.length) :
    p (cs.getD (cs.takeWhile p).length 0) = false := by
  induction cs with
  | nil => exact absurd h (Nat.lt_irrefl _)
  | cons c cs ih =>
    by_cases hc : p c = true
    · rw [List.takeWhile_cons_of_pos hc] at h ⊢
      exact ih (Nat.lt_of_succ_lt_succ h)
    · rw [List.takeWhile_cons_of_neg hc]
      exact Bool.eq_false_iff.mpr hc

theorem isWord_run {c : UInt8} (hcs : s.drop i = c :: cs) (hc : isWordChar c = true) :
    IsWord s ⟨i, i + 1 + (cs.takeWhile isWordChar).length⟩ := by
  have htail := drop_tail hcs
  have hlen : i + 1 + cs.length = s.length := by
    have := congrArg List.length hcs
    rw [List.length_drop, List.length_cons] at this
    omega
  have hrun : (cs.takeWhile isWordChar).length ≤ cs.length :=
    (List.takeWhile_sublist isWordChar).length_le
  refine ⟨by dsimp only; omega, by dsimp only; omega, ?_, ?_⟩
  · intro j hle hlt
    dsimp only at hle hlt
    rcases Nat.eq_or_lt_of_le hle with rfl | hgt
    · rw [show charAt s i = c from charAt_drop hcs 0]
      exact hc
    · rw [show j = i + 1 + (j - (i + 1)) by omega, charAt_drop htail]
      exact getD_takeWhile (by omega)
  · intro hlt
    dsimp only at hlt ⊢
    rw [charAt_drop htail]
    exact getD_length_takeWhile (by omega)

theorem ofChar_ne_word (c : UInt8) (w : Word) : Tok.ofChar c ≠ some (.word w) := by
  unfold Tok.ofChar
  split_ifs <;> simp

theorem not_mem_symbols {c : UInt8} (h : Tok.ofChar c = none) : c ∉ symbols := by
  intro hc
  simp only [symbols, List.mem_cons, List.not_mem_nil, or_false] at hc
  rcases hc with rfl | rfl | rfl | rfl | rfl | rfl | rfl <;> exact absurd h (by decide)

theorem isWord_of_mem_lex (hcs : s.drop i = cs) (hw : .word w ∈ lex i cs) : IsWord s w := by
  fun_induction lex i cs with
  | case1 => cases hw
  | case2 i c cs _ ih => exact ih (drop_tail hcs) hw
  | case3 i c cs _ hgt ih =>
    rcases List.mem_cons.mp hw with hw | hw
    · cases hw
    · obtain ⟨d, cs, rfl⟩ : ∃ d cs', cs = d :: cs' := by
        cases cs with
        | nil => cases hgt.2
        | cons d cs' => exact ⟨d, cs', rfl⟩
      exact ih (drop_tail (drop_tail hcs)) hw
  | case4 i c cs _ _ t _ ih =>
    rcases List.mem_cons.mp hw with hw | hw
    · subst hw
      exact absurd ‹Tok.ofChar c = some _› (ofChar_ne_word c w)
    · exact ih (drop_tail hcs) hw
  | case5 i c cs hblank _ hnone ih =>
    rcases List.mem_cons.mp hw with hw | hw
    · cases hw
      exact isWord_run hcs (by simp [isWordChar, hblank, not_mem_symbols hnone])
    · have hdrop := drop_scan (s := s) isWordChar (i + 1)
      rw [scan, drop_tail hcs] at hdrop
      exact ih hdrop hw

theorem isWord_of_mem_tokens (hw : .word w ∈ tokens s) : IsWord s w :=
  isWord_of_mem_lex rfl hw

/-- Where one word ends no other one goes on. -/
theorem IsWord.stop_not_inside {w' : Word} (h : IsWord s w) (h' : IsWord s w') {j : Nat}
    (hle : w.start ≤ j) (hlt : j < w.stop) : w'.stop ≠ j := by
  rintro rfl
  have hend := h'.next (Nat.lt_of_lt_of_le hlt h.stop_le)
  rw [h.chars _ hle hlt] at hend
  cases hend

/-! ### The buffer -/

theorem getD_set_zero (buf : List UInt8) (i j : Nat) :
    (buf.set i 0).getD j 0 = if i = j then 0 else buf.getD j 0 := by
  rw [List.getD_eq_getElem?_getD, List.getD_eq_getElem?_getD, List.getElem?_set]
  by_cases hij : i = j
  · rw [if_pos hij, if_pos hij]
    split <;> rfl
  · rw [if_neg hij, if_neg hij]

/-- The buffer has a zero at the end of every one of these words and is
unchanged elsewhere. -/
def Cut (ws : List Word) (buf buf' : List UInt8) : Prop :=
  ∀ j, buf'.getD j 0 = if ∃ w ∈ ws, w.stop = j then 0 else buf.getD j 0

theorem Cut.trans {ws ws' : List Word} {buf buf' buf'' : List UInt8} (h : Cut ws buf buf')
    (h' : Cut ws' buf' buf'') : Cut (ws ++ ws') buf buf'' := by
  intro j
  rw [h' j, h j]
  by_cases hw : ∃ w ∈ ws, w.stop = j
  · obtain ⟨w, hw, hj⟩ := hw
    rw [if_pos (show ∃ w ∈ ws ++ ws', w.stop = j from ⟨w, List.mem_append_left _ hw, hj⟩),
      if_pos (show ∃ w ∈ ws, w.stop = j from ⟨w, hw, hj⟩), ite_self]
  · rw [if_neg hw]
    have hiff : (∃ w ∈ ws ++ ws', w.stop = j) ↔ ∃ w ∈ ws', w.stop = j := by
      constructor
      · rintro ⟨w, hmem, hj⟩
        rcases List.mem_append.mp hmem with hmem | hmem
        · exact absurd ⟨w, hmem, hj⟩ hw
        · exact ⟨w, hmem, hj⟩
      · rintro ⟨w, hmem, hj⟩
        exact ⟨w, List.mem_append_right _ hmem, hj⟩
    simp only [hiff]

theorem cut_set (w : Word) (buf : List UInt8) : Cut [w] buf (buf.set w.stop 0) := by
  intro j
  rw [getD_set_zero]
  simp

theorem cut_foldl (ws : List Word) (buf : List UInt8) :
    Cut ws buf (ws.foldl (fun b w => b.set w.stop 0) buf) := by
  induction ws generalizing buf with
  | nil =>
    intro j
    simp
  | cons w ws ih => exact (cut_set w buf).trans (ih _)

theorem cut_nulterminate (c : Cmd) (buf : List UInt8) : Cut c.words buf (nulterminate c buf) := by
  induction c generalizing buf with
  | exec args => exact cut_foldl args buf
  | redir cmd file _ _ ih => exact (ih buf).trans (cut_set file _)
  | pipe _ _ ih ih' | list _ _ ih ih' => exact (ih buf).trans (ih' _)
  | back _ ih => exact ih buf

theorem cstring_eq_take (buf : List UInt8) (n i : Nat) (hle : i + n ≤ s.length)
    (hsame : ∀ j, i ≤ j → j < i + n → buf.getD j 0 = s.getD j 0 ∧ s.getD j 0 ≠ 0)
    (hend : buf.getD (i + n) 0 = 0) : cstring buf i = (s.drop i).take n := by
  unfold cstring
  induction n generalizing i with
  | zero =>
    rw [List.take_zero]
    cases hbuf : buf.drop i with
    | nil => rfl
    | cons c cs =>
      have hc : charAt buf (i + 0) = c := charAt_drop hbuf 0
      rw [charAt, hend] at hc
      exact List.takeWhile_cons_of_neg (by simp [← hc])
  | succ n ih =>
    obtain ⟨hi, hne⟩ := hsame i (Nat.le_refl i) (by omega)
    have hlt : i < buf.length := lt_of_charAt (by rw [charAt, hi]; exact hne)
    have hlt' : i < s.length := by omega
    rw [List.getD_eq_getElem?_getD, List.getElem?_eq_getElem hlt,
      List.getD_eq_getElem?_getD, List.getElem?_eq_getElem hlt', Option.getD_some,
      Option.getD_some] at hi
    rw [List.getD_eq_getElem?_getD, List.getElem?_eq_getElem hlt', Option.getD_some] at hne
    rw [List.drop_eq_getElem_cons hlt, List.drop_eq_getElem_cons hlt', List.take_succ_cons,
      List.takeWhile_cons_of_pos (by simp [hi, hne]), hi]
    congr 1
    refine ih (i + 1) (by omega) ?_ (by rwa [show i + 1 + n = i + (n + 1) by omega])
    intro j hle' hlt'
    exact hsame j (by omega) (by omega)

theorem charAt_mem (h : i < s.length) : charAt s i ∈ s := by
  rw [charAt, List.getD_eq_getElem?_getD, List.getElem?_eq_getElem h]
  exact List.getElem_mem h

/-- Every string of the command is the text of its token. -/
theorem cstring_nulterminate (hz : 0 ∉ s) (hwords : ∀ w ∈ c.words, IsWord s w) (hw : w ∈ c.words) :
    cstring (nulterminate c (s ++ [0])) w.start = text s w := by
  have hword := hwords w hw
  have hcut := cut_nulterminate c (s ++ [0])
  have hsum : w.start + (w.stop - w.start) = w.stop := by have := hword.start_lt; omega
  refine cstring_eq_take _ _ _ (by rw [hsum]; exact hword.stop_le) ?_ ?_
  · rw [hsum]
    intro j hle hlt
    have hj : j < s.length := Nat.lt_of_lt_of_le hlt hword.stop_le
    constructor
    · rw [hcut j, if_neg, List.getD_eq_getElem?_getD, List.getElem?_append_left hj,
        List.getD_eq_getElem?_getD]
      rintro ⟨w', hw', hstop⟩
      exact hword.stop_not_inside (hwords w' hw') hle hlt hstop
    · intro h0
      exact hz (h0 ▸ charAt_mem hj)
  · rw [hsum, hcut w.stop, if_pos ⟨w, hw, rfl⟩]

/-! ### `parsecmd` -/

theorem length_lex_le (i : Nat) (cs : List UInt8) : (lex i cs).length ≤ cs.length := by
  fun_induction lex i cs with
  | case1 => exact Nat.le_refl 0
  | case2 _ _ _ _ ih => exact Nat.le_succ_of_le ih
  | case3 i c cs _ _ ih =>
    rw [List.length_tail] at ih
    simp only [List.length_cons]
    omega
  | case4 _ _ _ _ _ _ _ ih => exact Nat.succ_le_succ ih
  | case5 _ _ cs _ _ _ ih =>
    exact Nat.succ_le_succ (ih.trans (List.dropWhile_sublist isWordChar).length_le)

theorem at_zero (hz : 0 ∉ s) : At s 0 (tokens s) := ⟨hz, Nat.zero_le _, rfl⟩

theorem fuel_le (s : List UInt8) : 4 * (tokens s).length + Part.line.depth ≤ 4 * s.length + 4 := by
  have := length_lex_le 0 s
  simp only [tokens, Part.depth]
  omega

theorem parseAll_sound (hz : 0 ∉ s) :
    wp (parseAll s) (fun c _ => Derives .line (tokens s) c) Panics 0 := by
  unfold parseAll
  refine wp_seq (parse_sound _ _ (Nat.lt_succ_self _) .line 0 _ (at_zero hz) (fuel_le s)) ?_
  rintro c i ⟨us, ts, hsplit, hline, h⟩
  unfold peek
  simp only [wp_bind, wp_gets, wp_modify, wp_pure, wp_panicIf]
  refine ⟨fun _ => Panic.noConfusion, fun hend => ?_⟩
  obtain rfl := h.scan_eq_length_iff.mp (not_not.mp hend)
  rw [hsplit, List.append_nil]
  exact hline

theorem parseAll_complete (hz : 0 ∉ s) (hd : Derives .line (tokens s) c) :
    wp (parseAll s) (fun c' _ => c' = c) (fun _ _ => False) 0 := by
  unfold parseAll
  have h : At s 0 (tokens s ++ []) := by
    rw [List.append_nil]
    exact at_zero hz
  refine wp_seq (parse_complete hd (Or.inl rfl) _ h (fuel_le s)) ?_
  rintro _ i ⟨rfl, h⟩
  unfold peek
  simp only [wp_bind, wp_gets, wp_modify, wp_pure, wp_panicIf]
  exact ⟨fun hne => hne (h.scan_eq_length_iff.mpr rfl), fun _ => trivial⟩

theorem parsecmd_ok_iff (hz : 0 ∉ s) (c : Cmd) (buf : List UInt8) :
    parsecmd s = .ok (c, buf) ↔
      Derives .line (tokens s) c ∧ buf = nulterminate c (s ++ [0]) := by
  unfold parsecmd
  cases hrun : parseAll s 0 with
  | mk r i =>
    constructor
    · intro h
      cases r with
      | error e => cases h
      | ok c' =>
        cases h
        have hd := of_wp_ok (parseAll_sound hz) hrun
        exact ⟨hd, rfl⟩
    · rintro ⟨hd, rfl⟩
      cases r with
      | error e => exact (of_wp_error (parseAll_complete hz hd) hrun).elim
      | ok c' =>
        obtain rfl := of_wp_ok (parseAll_complete hz hd) hrun
        rfl

theorem parsecmd_error (hz : 0 ∉ s) {e : Panic} (h : parsecmd s = .error e) :
    e ≠ .outOfSteps := by
  unfold parsecmd at h
  cases hrun : parseAll s 0 with
  | mk r i =>
    rw [hrun] at h
    cases r with
    | error e' =>
      cases h
      have hpanic := of_wp_error (parseAll_sound hz) hrun
      exact hpanic
    | ok c => cases h

/-- A command line is parsed exactly if its tokens are a line of the grammar,
and otherwise the parser panics; the tree is that of the derivation, and the
strings in the buffer are the texts of the tokens. -/
theorem parsecmd_accepts_grammar (s : List UInt8) (hz : 0 ∉ s) :
    (∀ c, (∃ buf, parsecmd s = .ok (c, buf)) ↔ Derives .line (tokens s) c) ∧
      (∀ e, parsecmd s = .error e → e ≠ .outOfSteps) ∧
      ∀ c buf, parsecmd s = .ok (c, buf) → ∀ w ∈ c.words,
        .word w ∈ tokens s ∧ cstring buf w.start = text s w := by
  refine ⟨?_, fun e h => parsecmd_error hz h, ?_⟩
  · intro c
    constructor
    · rintro ⟨buf, h⟩
      exact ((parsecmd_ok_iff hz c buf).mp h).1
    · intro hd
      exact ⟨_, (parsecmd_ok_iff hz c _).mpr ⟨hd, rfl⟩⟩
  · intro c buf h w hw
    obtain ⟨hd, rfl⟩ := (parsecmd_ok_iff hz c buf).mp h
    have hwords (w' : Word) (hw' : w' ∈ c.words) : IsWord s w' :=
      isWord_of_mem_tokens (hd.word_mem hw')
    exact ⟨hd.word_mem hw, cstring_nulterminate hz hwords hw⟩

/-- The characters of a string. -/
def chars (s : String) : List UInt8 := s.toList.map ch

theorem parsecmd_accepts_pipe :
    0 ∉ chars "ls>f|wc&" ∧
      (∃ buf, parsecmd (chars "ls>f|wc&") = .ok (.back (.pipe
        (.redir (.exec [⟨0, 2⟩]) ⟨3, 4⟩ (O_WRONLY ||| O_CREATE) 1) (.exec [⟨5, 7⟩])), buf) ∧
        cstring buf 0 = chars "ls" ∧ cstring buf 3 = chars "f" ∧ cstring buf 5 = chars "wc") := by
  have hz : 0 ∉ chars "ls>f|wc&" := by decide
  obtain ⟨-, -, hstrings⟩ := parsecmd_accepts_grammar _ hz
  have hrun : parsecmd (chars "ls>f|wc&") = .ok (.back (.pipe
      (.redir (.exec [⟨0, 2⟩]) ⟨3, 4⟩ (O_WRONLY ||| O_CREATE) 1) (.exec [⟨5, 7⟩])),
      [108, 115, 0, 102, 0, 119, 99, 0, 0]) := by
    decide +kernel
  have hword := hstrings _ _ hrun
  exact ⟨hz, _, hrun, (hword ⟨0, 2⟩ (by decide)).2, (hword ⟨3, 4⟩ (by decide)).2,
    (hword ⟨5, 7⟩ (by decide)).2⟩

end Xv6.Shell
