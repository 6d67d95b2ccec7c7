import Xv6.Shell.Tokens

/-!
The grammar of command lines, and that the recursive-descent functions accept
exactly what it derives, with the tree of the derivation. Soundness is an
induction on the steps left; completeness is an induction on the derivation,
where the tokens that may follow a part tell each loop when to stop.
-/

namespace Xv6.Shell

open Prog

/-! ### The grammar -/

structure Redir where
  file : Word
  mode : Nat
  fd : Nat
deriving DecidableEq, Repr

/-- `redir*`. -/
inductive Redirs : List Tok → List Redir → Prop
  | nil : Redirs [] []
  | lt {ts : List Tok} {rs : List Redir} (w : Word) (hrest : Redirs ts rs) :
      Redirs (.lt :: .word w :: ts) (⟨w, O_RDONLY, 0⟩ :: rs)
  | gt {ts : List Tok} {rs : List Redir} (w : Word) (hrest : Redirs ts rs) :
      Redirs (.gt :: .word w :: ts) (⟨w, O_WRONLY ||| O_CREATE, 1⟩ :: rs)
  | gtgt {ts : List Tok} {rs : List Redir} (w : Word) (hrest : Redirs ts rs) :
      Redirs (.gtgt :: .word w :: ts) (⟨w, O_WRONLY ||| O_CREATE, 1⟩ :: rs)

/-- `(word redir*)*`, with the words and the redirections apart. -/
inductive Args : List Tok → List Word → List Redir → Prop
  | nil : Args [] [] []
  | cons {ts ts' : List Tok} {ws : List Word} {rs rs' : List Redir} (w : Word)
      (hredirs : Redirs ts rs) (hrest : Args ts' ws rs') :
      Args (.word w :: (ts ++ ts')) (w :: ws) (rs ++ rs')

/-- Redirections around a command, the first one inside. -/
def Cmd.wrap (cmd : Cmd) (rs : List Redir) : Cmd :=
  rs.foldl (fun c r => .redir c r.file r.mode r.fd) cmd

/-- One `BACK` for every `&`. -/
def Cmd.backs (cmd : Cmd) : Nat → Cmd
  | 0 => cmd
  | n + 1 => .back (cmd.backs n)

inductive Part where
  | line | pipe | command
deriving DecidableEq, Repr

/-- The tokens are a part of this kind, and the tree is that of the
derivation. -/
inductive Derives : Part → List Tok → Cmd → Prop
  | line {ts : List Tok} {c : Cmd} (n : Nat) (hpipe : Derives .pipe ts c) :
      Derives .line (ts ++ List.replicate n .amp) (c.backs n)
  | semi {ts ts' : List Tok} {c c' : Cmd} (n : Nat) (hpipe : Derives .pipe ts c)
      (hrest : Derives .line ts' c') :
      Derives .line (ts ++ List.replicate n .amp ++ .semi :: ts') (.list (c.backs n) c')
  | pipe {ts : List Tok} {c : Cmd} (hcommand : Derives .command ts c) : Derives .pipe ts c
  | bar {ts ts' : List Tok} {c c' : Cmd} (hcommand : Derives .command ts c)
      (hrest : Derives .pipe ts' c') : Derives .pipe (ts ++ .bar :: ts') (.pipe c c')
  | block {ts ts' : List Tok} {c : Cmd} {rs : List Redir} (hline : Derives .line ts c)
      (hredirs : Redirs ts' rs) :
      Derives .command (.lparen :: (ts ++ .rparen :: ts')) (c.wrap rs)
  | exec {ts ts' : List Tok} {ws : List Word} {rs rs' : List Redir} (hredirs : Redirs ts rs)
      (hargs : Args ts' ws rs') (hlen : ws.length < MAXARGS) :
      Derives .command (ts ++ ts') ((Cmd.exec ws).wrap (rs ++ rs'))

theorem Cmd.wrap_append (c : Cmd) (rs rs' : List Redir) :
    c.wrap (rs ++ rs') = (c.wrap rs).wrap rs' :=
  List.foldl_append ..

theorem Cmd.addArg_wrap (w : Word) (c : Cmd) (rs : List Redir) :
    (c.wrap rs).addArg w = (c.addArg w).wrap rs := by
  induction rs generalizing c with
  | nil => rfl
  | cons r rs ih => exact ih _

theorem Cmd.back_backs (c : Cmd) (n : Nat) : (Cmd.back c).backs n = .back (c.backs n) := by
  induction n with
  | zero => rfl
  | succ n ih => exact congrArg Cmd.back ih

/-! ### The loops -/

section

variable {s : List UInt8} {i : Nat}

/-- A run that does not end with a result ends with a panic of the source. -/
def Panics (e : Panic) (_ : Nat) : Prop := e ≠ .outOfSteps

variable {ts us : List Tok} {rs : List Redir} {toks : List UInt8} {f : Nat}

theorem At.wp_gettoken_word (h : At s i ts) {α : Type} {g : UInt8 × Word → ParseM α}
    {Q : α → Nat → Prop} {E : Panic → Nat → Prop}
    (hword : ∀ w ts' i', ts = .word w :: ts' → At s i' ts' → wp (g (ch 'a', w)) Q E i')
    (hother : ∀ code w i', code ≠ ch 'a' → wp (g (code, w)) Q E i') :
    wp (gettoken s >>= g) Q E i := by
  cases ts with
  | nil => exact h.wp_gettoken_nil (fun w i' _ => hother 0 w i' (by decide))
  | cons t ts =>
    refine h.wp_gettoken_cons fun w i' h' hw => ?_
    cases t with
    | word w' =>
      obtain rfl := hw w' rfl
      exact hword w' ts i' rfl h'
    | _ => exact hother _ w i' (by decide)

/-- A token that no other token begins like. -/
theorem leads_single {t : Tok} (ht : t ∈ [Tok.bar, .amp, .semi, .lparen, .rparen])
    (h : leads [t.code] ts = true) : ∃ ts', ts = t :: ts' := by
  cases ts with
  | nil => cases h
  | cons u ts =>
    refine ⟨ts, ?_⟩
    rw [leads, decide_eq_true_eq, List.mem_singleton] at h
    simp only [List.mem_cons, List.not_mem_nil, or_false] at ht
    rcases ht with rfl | rfl | rfl | rfl | rfl <;>
      cases u <;>
        first | rfl | (exact absurd h (by simp only [Tok.lead, Tok.code]; decide))

theorem leads_redir (h : leads [ch '<', ch '>'] ts = true) :
    ∃ t ts', ts = t :: ts' ∧ (t = .lt ∨ t = .gt ∨ t = .gtgt) := by
  cases ts with
  | nil => cases h
  | cons t ts =>
    refine ⟨t, ts, rfl, ?_⟩
    rw [leads, decide_eq_true_eq] at h
    cases t <;>
      first
      | exact Or.inl rfl
      | exact Or.inr (Or.inl rfl)
      | exact Or.inr (Or.inr rfl)
      | exact absurd h (by simp only [Tok.lead, Tok.code]; decide)

theorem parseredirs_sound (f : Nat) (c : Cmd) (h : At s i ts) (hf : ts.length < f) :
    wp (parseredirs s f c) (fun c' i' => ∃ us rs ts', ts = us ++ ts' ∧ Redirs us rs ∧
      c' = c.wrap rs ∧ At s i' ts') Panics i := by
  induction f generalizing i ts c with
  | zero => omega
  | succ f ih =>
    unfold parseredirs
    refine h.wp_peek (by decide) fun i h => ?_
    refine wp_ite ?_ ?_
    · intro hlead
      obtain ⟨t, ts, rfl, ht⟩ := leads_redir hlead
      refine h.wp_gettoken_cons fun _ i h _ => ?_
      refine h.wp_gettoken_word ?_ ?_
      · rintro w ts i rfl h
        refine wp_bind.mpr (wp_panicIf.mpr ⟨fun hne => absurd rfl hne, fun _ => ?_⟩)
        have hlen : ts.length < f := by
          simp only [List.length_cons] at hf
          omega
        refine wp_mono (ih (redircmd c t.code w) h hlen) ?_ (fun _ _ he => he)
        rintro c' i' ⟨us, rs, ts', rfl, hredirs, rfl, h'⟩
        rcases ht with rfl | rfl | rfl
        · exact ⟨_, _, ts', rfl, .lt w hredirs, rfl, h'⟩
        · exact ⟨_, _, ts', rfl, .gt w hredirs, rfl, h'⟩
        · exact ⟨_, _, ts', rfl, .gtgt w hredirs, rfl, h'⟩
      · intro code w i' hcode
        refine wp_bind.mpr (wp_panicIf.mpr ⟨fun _ => ?_, fun heq => absurd hcode heq⟩)
        exact Panic.noConfusion
    · intro _
      exact ⟨[], [], ts, rfl, .nil, rfl, h⟩

theorem parseredirs_complete (hredirs : Redirs us rs)
    (hstop : leads [ch '<', ch '>'] ts = false) (f : Nat) (c : Cmd) (h : At s i (us ++ ts))
    (hf : us.length < f) :
    wp (parseredirs s f c) (fun c' i' => c' = c.wrap rs ∧ At s i' ts) (fun _ _ => False) i := by
  induction hredirs generalizing i f c with
  | nil =>
    obtain ⟨f, rfl⟩ : ∃ g, f = g + 1 := ⟨f - 1, by omega⟩
    unfold parseredirs
    refine h.wp_peek (by decide) fun i h => ?_
    rw [List.nil_append, hstop]
    exact ⟨rfl, h⟩
  | lt w _ ih | gt w _ ih | gtgt w _ ih =>
    simp only [List.length_cons] at hf
    obtain ⟨f, rfl⟩ : ∃ g, f = g + 1 := ⟨f - 1, by omega⟩
    unfold parseredirs
    refine h.wp_peek (by decide) fun i h => ?_
    refine h.wp_gettoken_cons fun _ i h _ => ?_
    refine h.wp_gettoken_cons fun w' i h hw => ?_
    obtain rfl := hw w rfl
    exact ih f _ h (by omega)

theorem parseargs_sound (f : Nat) (ws : List Word) (rs : List Redir)
    (hlen : ws.length < MAXARGS) (h : At s i ts) (hf : ts.length < f) :
    wp (parseargs s f ws.length ((Cmd.exec ws).wrap rs)) (fun c i' => ∃ us ws' rs' ts',
      ts = us ++ ts' ∧ Args us ws' rs' ∧ (ws ++ ws').length < MAXARGS ∧
      c = (Cmd.exec (ws ++ ws')).wrap (rs ++ rs') ∧ At s i' ts') Panics i := by
  induction f generalizing i ts ws rs with
  | zero => omega
  | succ f ih =>
    unfold parseargs
    refine h.wp_peek (by decide) fun i h => ?_
    have hnone {i' : Nat} (h' : At s i' ts) : ∃ us ws' rs' ts', ts = us ++ ts' ∧
        Args us ws' rs' ∧ (ws ++ ws').length < MAXARGS ∧
        (Cmd.exec ws).wrap rs = (Cmd.exec (ws ++ ws')).wrap (rs ++ rs') ∧ At s i' ts' :=
      ⟨[], [], [], ts, rfl, .nil, by rwa [List.append_nil],
        by rw [List.append_nil, List.append_nil], h'⟩
    refine wp_ite (fun _ => hnone h) (fun _ => ?_)
    cases ts with
    | nil => exact h.wp_gettoken_nil (fun w i' h' => hnone h')
    | cons t ts =>
      refine h.wp_gettoken_cons fun w i hnext hw => ?_
      cases t with
      | word w' =>
        obtain rfl := hw w' rfl
        refine wp_bind.mpr (wp_panicIf.mpr ⟨fun hne => absurd rfl hne, fun _ => ?_⟩)
        refine wp_bind.mpr (wp_panicIf.mpr ⟨fun _ => Panic.noConfusion, fun hmax => ?_⟩)
        rw [List.length_cons] at hf
        rw [Cmd.addArg_wrap]
        refine wp_seq (parseredirs_sound f _ hnext (by omega)) ?_
        rintro c i ⟨us, rs₁, ts, rfl, hredirs, rfl, h⟩
        have hlen' : (ws ++ [w']).length < MAXARGS := by simpa using hmax
        rw [List.length_append] at hf
        have hrec := ih (ws ++ [w']) (rs ++ rs₁) hlen' h (by omega)
        rw [List.length_append, Cmd.wrap_append] at hrec
        refine wp_mono hrec ?_ (fun _ _ he => he)
        rintro c i' ⟨us', ws', rs', ts', rfl, hargs, hcount, rfl, h'⟩
        refine ⟨.word w' :: (us ++ us'), w' :: ws', rs₁ ++ rs', ts', ?_,
          .cons w' hredirs hargs, ?_, ?_, h'⟩
        · simp
        · simpa using hcount
        · simp
      | _ => exact Panic.noConfusion

/-- The tokens end here, or go on with one that begins so. -/
def Follows (toks : List UInt8) (ts : List Tok) : Prop := ts = [] ∨ leads toks ts = true

theorem leads_of_disjoint {toks' : List UInt8} (hdisj : toks.all (· ∉ toks') = true)
    (h : Follows toks ts) : leads toks' ts = false := by
  rcases h with rfl | h
  · rfl
  · cases ts with
    | nil => rfl
    | cons t ts =>
      rw [leads, decide_eq_true_eq] at h
      rw [leads, decide_eq_false_iff_not]
      exact of_decide_eq_true (List.all_eq_true.mp hdisj _ h)

/-- The characters at which the loop of `parseexec` stops. -/
def stops : List UInt8 := [ch '|', ch ')', ch '&', ch ';']

theorem Args.leads_redir {ws : List Word} (h : Args us ws rs) (hstop : Follows stops ts) :
    leads [ch '<', ch '>'] (us ++ ts) = false := by
  cases h with
  | nil => exact leads_of_disjoint (by decide) hstop
  | cons w _ _ =>
    rw [List.cons_append, leads]
    exact (by decide : decide (ch 'a' ∈ [ch '<', ch '>']) = false)

theorem parseargs_complete {ws' : List Word} {rs' : List Redir}
    (hargs : Args us ws' rs') (hstop : Follows stops ts) (f : Nat) (ws : List Word)
    (rs : List Redir) (hlen : (ws ++ ws').length < MAXARGS) (h : At s i (us ++ ts))
    (hf : us.length < f) : wp (parseargs s f ws.length ((Cmd.exec ws).wrap rs)) (fun c i' =>
      c = (Cmd.exec (ws ++ ws')).wrap (rs ++ rs') ∧ At s i' ts) (fun _ _ => False) i := by
  induction hargs generalizing i f ws rs with
  | nil =>
    obtain ⟨f, rfl⟩ : ∃ g, f = g + 1 := ⟨f - 1, by omega⟩
    unfold parseargs
    refine h.wp_peek (by decide) fun i h => ?_
    rw [List.append_nil, List.append_nil]
    rcases hstop with rfl | hlead
    · exact h.wp_gettoken_nil (fun w i' h' => ⟨rfl, h'⟩)
    · rw [List.nil_append, show leads [ch '|', ch ')', ch '&', ch ';'] ts = true from hlead]
      exact ⟨rfl, h⟩
  | @cons us us' ws' rs₁ rs' w hredirs hrest ih =>
    rw [List.length_cons, List.length_append] at hf
    obtain ⟨f, rfl⟩ : ∃ g, f = g + 1 := ⟨f - 1, by omega⟩
    rw [List.length_append, List.length_cons] at hlen
    unfold parseargs
    refine h.wp_peek (by decide) fun i h => ?_
    refine h.wp_gettoken_cons fun w' i h hw => ?_
    obtain rfl := hw w rfl
    refine wp_bind.mpr (wp_panicIf.mpr ⟨fun hne => absurd rfl hne, fun _ => ?_⟩)
    refine wp_bind.mpr (wp_panicIf.mpr ⟨fun hmax => by omega, fun _ => ?_⟩)
    rw [Cmd.addArg_wrap]
    replace h : At s i (us ++ (us' ++ ts)) := by rwa [← List.append_assoc]
    refine wp_seq (parseredirs_complete hredirs (hrest.leads_redir hstop) f _ h
      (by omega)) ?_
    rintro c i ⟨rfl, h⟩
    have hlen' : (ws ++ [w] ++ ws').length < MAXARGS := by
      simp only [List.length_append, List.length_cons, List.length_nil]
      omega
    have hrec := ih f (ws ++ [w]) (rs ++ rs₁) hlen' h (by omega)
    rw [List.length_append, Cmd.wrap_append] at hrec
    simp only [List.append_assoc, List.singleton_append] at hrec
    exact hrec

theorem parsebacks_sound (f : Nat) (c : Cmd) (h : At s i ts) (hf : ts.length < f) :
    wp (parsebacks s f c) (fun c' i' => ∃ n ts', ts = List.replicate n .amp ++ ts' ∧
      c' = c.backs n ∧ At s i' ts') Panics i := by
  induction f generalizing i ts c with
  | zero => omega
  | succ f ih =>
    unfold parsebacks
    refine h.wp_peek (by decide) fun i h => ?_
    refine wp_ite ?_ ?_
    · intro hlead
      obtain ⟨ts, rfl⟩ := leads_single (t := .amp) (by decide) hlead
      refine h.wp_gettoken_cons fun _ i h _ => ?_
      refine wp_mono (ih (.back c) h (Nat.lt_of_succ_lt_succ hf)) ?_ (fun _ _ he => he)
      rintro c' i' ⟨n, ts', rfl, rfl, h'⟩
      exact ⟨n + 1, ts', rfl, Cmd.back_backs c n, h'⟩
    · intro _
      exact ⟨0, ts, rfl, rfl, h⟩

theorem parsebacks_complete (n : Nat) (hstop : leads [ch '&'] ts = false) (f : Nat)
    (c : Cmd) (h : At s i (List.replicate n .amp ++ ts)) (hf : n < f) :
    wp (parsebacks s f c) (fun c' i' => c' = c.backs n ∧ At s i' ts) (fun _ _ => False) i := by
  induction n generalizing i f c with
  | zero =>
    obtain ⟨f, rfl⟩ : ∃ g, f = g + 1 := ⟨f - 1, by omega⟩
    unfold parsebacks
    refine h.wp_peek (by decide) fun i h => ?_
    rw [List.replicate_zero, List.nil_append, hstop]
    exact ⟨rfl, h⟩
  | succ n ih =>
    obtain ⟨f, rfl⟩ : ∃ g, f = g + 1 := ⟨f - 1, by omega⟩
    unfold parsebacks
    refine h.wp_peek (by decide) fun i h => ?_
    refine h.wp_gettoken_cons fun _ i h _ => ?_
    have hrec := ih f (.back c) h (Nat.lt_of_succ_lt_succ hf)
    rw [Cmd.back_backs] at hrec
    exact hrec

/-! ### The functions -/

/-- The function for a part. -/
def parse (s : List UInt8) : Part → Nat → ParseM Cmd
  | .line => parseline s
  | .pipe => parsepipe s
  | .command => parseexec s

/-- How deep the calls go before a token is read. -/
def Part.depth : Part → Nat
  | .line => 4
  | .pipe => 3
  | .command => 2

/-- What the run of a part leaves and returns. -/
def Parsed (s : List UInt8) (n : Part) (ts : List Tok) (c : Cmd) (i : Nat) : Prop :=
  ∃ us ts', ts = us ++ ts' ∧ Derives n us c ∧ At s i ts'

/-- The parts are parsed soundly with fewer than `f` steps. -/
def SoundBelow (s : List UInt8) (f : Nat) : Prop :=
  ∀ g < f, ∀ (n : Part) (i : Nat) (ts : List Tok), At s i ts → 4 * ts.length + n.depth ≤ g →
    wp (parse s n g) (Parsed s n ts) Panics i

theorem parseline_sound (ih : SoundBelow s (f + 1)) (h : At s i ts)
    (hf : 4 * ts.length + 4 ≤ f + 1) : wp (parseline s (f + 1)) (Parsed s .line ts) Panics i := by
  unfold parseline
  refine wp_seq (ih f (Nat.lt_succ_self f) .pipe i ts h (Nat.le_of_succ_le_succ hf)) ?_
  rintro c i ⟨us, ts, rfl, hpipe, h⟩
  rw [List.length_append] at hf
  refine wp_seq (parsebacks_sound f c h (by omega)) ?_
  rintro c i ⟨n, ts, rfl, rfl, h⟩
  rw [List.length_append] at hf
  refine h.wp_peek (by decide) fun i h => ?_
  refine wp_ite ?_ ?_
  · intro hlead
    obtain ⟨ts, rfl⟩ := leads_single (t := .semi) (by decide) hlead
    rw [List.length_cons] at hf
    refine h.wp_gettoken_cons fun _ i h _ => ?_
    refine wp_seq (ih f (Nat.lt_succ_self f) .line i ts h
      (by simp only [Part.depth]; omega)) ?_
    rintro c' i ⟨us', ts, rfl, hline, h⟩
    exact ⟨us ++ List.replicate n .amp ++ .semi :: us', ts, by simp, .semi n hpipe hline, h⟩
  · intro _
    exact ⟨us ++ List.replicate n .amp, ts, by simp, .line n hpipe, h⟩

theorem parsepipe_sound (ih : SoundBelow s (f + 1)) (h : At s i ts)
    (hf : 4 * ts.length + 3 ≤ f + 1) : wp (parsepipe s (f + 1)) (Parsed s .pipe ts) Panics i := by
  unfold parsepipe
  refine wp_seq (ih f (Nat.lt_succ_self f) .command i ts h (Nat.le_of_succ_le_succ hf)) ?_
  rintro c i ⟨us, ts, rfl, hcommand, h⟩
  rw [List.length_append] at hf
  refine h.wp_peek (by decide) fun i h => ?_
  refine wp_ite ?_ ?_
  · intro hlead
    obtain ⟨ts, rfl⟩ := leads_single (t := .bar) (by decide) hlead
    rw [List.length_cons] at hf
    refine h.wp_gettoken_cons fun _ i h _ => ?_
    refine wp_seq (ih f (Nat.lt_succ_self f) .pipe i ts h (by simp only [Part.depth]; omega)) ?_
    rintro c' i ⟨us', ts, rfl, hpipe, h⟩
    exact ⟨us ++ .bar :: us', ts, by simp, .bar hcommand hpipe, h⟩
  · intro _
    exact ⟨us, ts, rfl, .pipe hcommand, h⟩

theorem parseblock_sound {f : Nat} (ih : SoundBelow s (f + 1)) {ts : List Tok}
    (h : At s i ts) (hlead : leads [ch '('] ts = true) (hf : 4 * ts.length + 1 ≤ f + 1) :
    wp (parseblock s (f + 1)) (Parsed s .command ts) Panics i := by
  obtain ⟨ts, rfl⟩ := leads_single (t := .lparen) (by decide) hlead
  rw [List.length_cons] at hf
  unfold parseblock
  refine h.wp_peek (by decide) fun i h => ?_
  rw [hlead]
  refine h.wp_gettoken_cons fun _ i h _ => ?_
  refine wp_seq (ih f (Nat.lt_succ_self f) .line i ts h (by simp only [Part.depth]; omega)) ?_
  rintro c i ⟨us, ts, rfl, hline, h⟩
  rw [List.length_append] at hf
  refine h.wp_peek (by decide) fun i h => ?_
  refine wp_ite ?_ (fun _ => Panic.noConfusion)
  intro hclose
  obtain ⟨ts, rfl⟩ := leads_single (t := .rparen) (by decide) hclose
  rw [List.length_cons] at hf
  refine h.wp_gettoken_cons fun _ i h _ => ?_
  refine wp_mono (parseredirs_sound f c h (by omega)) ?_ (fun _ _ he => he)
  rintro c' i ⟨us', rs, ts, rfl, hredirs, rfl, h⟩
  exact ⟨.lparen :: (us ++ .rparen :: us'), ts, by simp, .block hline hredirs, h⟩

theorem parseexec_sound (ih : SoundBelow s (f + 1)) (h : At s i ts)
    (hf : 4 * ts.length + 2 ≤ f + 1) :
    wp (parseexec s (f + 1)) (Parsed s .command ts) Panics i := by
  unfold parseexec
  refine h.wp_peek (by decide) fun i h => ?_
  refine wp_ite ?_ ?_
  · intro hlead
    obtain ⟨f, rfl⟩ : ∃ g, f = g + 1 := ⟨f - 1, by omega⟩
    exact parseblock_sound (fun g hg => ih g (Nat.lt_succ_of_lt hg)) h hlead
      (Nat.le_of_succ_le_succ hf)
  · intro _
    refine wp_seq (parseredirs_sound f (.exec []) h (by omega)) ?_
    rintro c i ⟨us, rs, ts, rfl, hredirs, rfl, h⟩
    rw [List.length_append] at hf
    refine wp_mono (parseargs_sound f [] rs (by decide) h (by omega)) ?_ (fun _ _ he => he)
    rintro c i ⟨us', ws, rs', ts, rfl, hargs, hlen, rfl, h⟩
    exact ⟨us ++ us', ts, by simp, .exec hredirs hargs hlen, h⟩

theorem parse_sound (f : Nat) : SoundBelow s f := by
  induction f with
  | zero => exact fun g hg => absurd hg (Nat.not_lt_zero g)
  | succ f ih =>
    intro g hg n i ts h hf
    rcases Nat.lt_succ_iff_lt_or_eq.mp hg with hlt | rfl
    · exact ih g hlt n i ts h hf
    · obtain ⟨g, rfl⟩ : ∃ k, g = k + 1 :=
        ⟨g - 1, by cases n <;> simp only [Part.depth] at hf <;> omega⟩
      cases n with
      | line => exact parseline_sound ih h hf
      | pipe => exact parsepipe_sound ih h hf
      | command => exact parseexec_sound ih h hf

/-- The characters that may begin the token after a part. -/
def Part.follow : Part → List UInt8
  | .line => [ch ')']
  | .pipe => [ch ')', ch '&', ch ';']
  | .command => stops

theorem Follows.mono {toks' : List UInt8} (hsub : toks.all (· ∈ toks') = true)
    (h : Follows toks ts) : Follows toks' ts := by
  rcases h with rfl | h
  · exact Or.inl rfl
  · cases ts with
    | nil => exact Or.inl rfl
    | cons t ts =>
      rw [leads, decide_eq_true_eq] at h
      exact Or.inr (List.all_eq_true.mp hsub _ h)

theorem follows_cons {t : Tok} (ht : t.lead ∈ toks) (ts : List Tok) : Follows toks (t :: ts) :=
  Or.inr (by rw [leads, decide_eq_true_eq]; exact ht)

theorem follows_replicate {n : Nat} {ts : List Tok} (h : Follows [ch ')', ch ';'] ts) :
    Follows Part.pipe.follow (List.replicate n .amp ++ ts) := by
  cases n with
  | zero => exact h.mono (by decide)
  | succ n => exact follows_cons (by decide) _

/-- The tokens of a simple command do not begin with a parenthesis. -/
theorem leads_exec {us' : List Tok} {ws : List Word} {rs' : List Redir} (hredirs : Redirs us rs)
    (hargs : Args us' ws rs') (hstop : Follows stops ts) :
    leads [ch '('] (us ++ (us' ++ ts)) = false := by
  cases hredirs with
  | nil =>
    cases hargs with
    | nil => exact leads_of_disjoint (by decide) hstop
    | cons w _ _ => exact (by decide : decide (ch 'a' ∈ [ch '(']) = false)
  | lt | gt | gtgt => rfl

theorem parse_complete {n : Part} {c : Cmd} (hd : Derives n us c)
    (hfollow : Follows n.follow ts) (f : Nat) (h : At s i (us ++ ts))
    (hf : 4 * us.length + n.depth ≤ f) :
    wp (parse s n f) (fun c' i' => c' = c ∧ At s i' ts) (fun _ _ => False) i := by
  induction hd generalizing i ts f with
  | @line us c n _ ih =>
    simp only [List.length_append, List.length_replicate, Part.depth] at hf
    obtain ⟨f, rfl⟩ : ∃ g, f = g + 1 := ⟨f - 1, by omega⟩
    rw [List.append_assoc] at h
    change wp (parseline s (f + 1)) _ _ i
    unfold parseline
    refine wp_seq (ih (follows_replicate (hfollow.mono (by decide))) f h
      (by simp only [Part.depth]; omega)) ?_
    rintro _ i ⟨rfl, h⟩
    refine wp_seq (parsebacks_complete n (leads_of_disjoint (by decide) hfollow) f _ h
      (by omega)) ?_
    rintro _ i ⟨rfl, h⟩
    refine h.wp_peek (by decide) fun i h => ?_
    rw [leads_of_disjoint (by decide) hfollow]
    exact ⟨rfl, h⟩
  | @semi us us' c c' n _ _ ih ih' =>
    simp only [List.length_append, List.length_replicate, List.length_cons, Part.depth] at hf
    obtain ⟨f, rfl⟩ : ∃ g, f = g + 1 := ⟨f - 1, by omega⟩
    simp only [List.append_assoc, List.cons_append] at h
    change wp (parseline s (f + 1)) _ _ i
    unfold parseline
    refine wp_seq (ih (follows_replicate (follows_cons (by decide) _)) f h
      (by simp only [Part.depth]; omega)) ?_
    rintro _ i ⟨rfl, h⟩
    refine wp_seq (parsebacks_complete n rfl f _ h (by omega)) ?_
    rintro _ i ⟨rfl, h⟩
    refine h.wp_peek (by decide) fun i h => ?_
    refine h.wp_gettoken_cons fun _ i h _ => ?_
    refine wp_seq (ih' hfollow f h (by simp only [Part.depth]; omega)) ?_
    rintro _ i ⟨rfl, h⟩
    exact ⟨rfl, h⟩
  | @pipe us c _ ih =>
    simp only [Part.depth] at hf
    obtain ⟨f, rfl⟩ : ∃ g, f = g + 1 := ⟨f - 1, by omega⟩
    change wp (parsepipe s (f + 1)) _ _ i
    unfold parsepipe
    refine wp_seq (ih (hfollow.mono (by decide)) f h (by simp only [Part.depth]; omega)) ?_
    rintro _ i ⟨rfl, h⟩
    refine h.wp_peek (by decide) fun i h => ?_
    rw [leads_of_disjoint (by decide) hfollow]
    exact ⟨rfl, h⟩
  | @bar us us' c c' _ _ ih ih' =>
    simp only [List.length_append, List.length_cons, Part.depth] at hf
    obtain ⟨f, rfl⟩ : ∃ g, f = g + 1 := ⟨f - 1, by omega⟩
    rw [List.append_assoc, List.cons_append] at h
    change wp (parsepipe s (f + 1)) _ _ i
    unfold parsepipe
    refine wp_seq (ih (follows_cons (by decide) _) f h (by simp only [Part.depth]; omega)) ?_
    rintro _ i ⟨rfl, h⟩
    refine h.wp_peek (by decide) fun i h => ?_
    refine h.wp_gettoken_cons fun _ i h _ => ?_
    refine wp_seq (ih' hfollow f h (by simp only [Part.depth]; omega)) ?_
    rintro _ i ⟨rfl, h⟩
    exact ⟨rfl, h⟩
  | @block us us' c rs _ hredirs ih =>
    simp only [List.length_append, List.length_cons, Part.depth] at hf
    obtain ⟨f, rfl⟩ : ∃ g, f = g + 2 := ⟨f - 2, by omega⟩
    simp only [List.cons_append, List.append_assoc] at h
    change wp (parseexec s (f + 1 + 1)) _ _ i
    unfold parseexec
    refine h.wp_peek (by decide) fun i h => ?_
    change wp (parseblock s (f + 1)) _ _ i
    unfold parseblock
    refine h.wp_peek (by decide) fun i h => ?_
    refine h.wp_gettoken_cons fun _ i h _ => ?_
    refine wp_seq (ih (follows_cons (by decide) _) f h (by simp only [Part.depth]; omega)) ?_
    rintro _ i ⟨rfl, h⟩
    refine h.wp_peek (by decide) fun i h => ?_
    refine h.wp_gettoken_cons fun _ i h _ => ?_
    exact parseredirs_complete hredirs (leads_of_disjoint (by decide) hfollow) f _ h
      (by omega)
  | @exec us us' ws rs rs' hredirs hargs hlen =>
    simp only [List.length_append, Part.depth] at hf
    obtain ⟨f, rfl⟩ : ∃ g, f = g + 1 := ⟨f - 1, by omega⟩
    rw [List.append_assoc] at h
    change wp (parseexec s (f + 1)) _ _ i
    unfold parseexec
    refine h.wp_peek (by decide) fun i h => ?_
    rw [leads_exec hredirs hargs hfollow]
    refine wp_seq (parseredirs_complete hredirs (hargs.leads_redir hfollow) f _ h
      (by omega)) ?_
    rintro _ i ⟨rfl, h⟩
    exact parseargs_complete hargs hfollow f [] rs hlen h (by omega)

end

end Xv6.Shell
