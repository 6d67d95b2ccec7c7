import Xv6.Console.LineEdit

/-!
What readers get. The calls of `consoleread` share out the committed characters
in order; a call ends with its count, at a newline or before a `^D`, and a `^D`
goes to one call that has nothing else. It is shown for the line editor, and the
console serves its readers as the editor does.
-/

namespace Xv6.Console

open Prog Transition

/-- What a reader with `n` of `target` bytes to go does to the editor. -/
structure Reads (target n : Nat) (d d' : Editor) (p : Progress) : Prop where
  queue : d.queue = p.taken ++ d'.queue
  committed : d'.committed = d.committed
  bytes : ctrl 'D' ∉ p.bytes
  why : match p.why with
    | none => newline ∉ p.bytes ∧ p.bytes.length ≤ n
    | some .count => newline ∉ p.bytes ∧ p.bytes.length = n
    | some .newline => ∃ init, p.bytes = init ++ [newline] ∧ newline ∉ init ∧ init.length < n
    | some .eof => p.bytes = [] ∧ n = target ∧ 0 < n
    | some .beforeEof => newline ∉ p.bytes ∧ p.bytes.length ≤ n ∧ n - p.bytes.length < target ∧
        ∃ rest, d'.queue = ctrl 'D' :: rest
    | some .killed => False

/-- One more byte before the others. -/
theorem Reads.cons {target n : Nat} {d d' : Editor} {p : Progress} {c : UInt8}
    {queue : List UInt8} (h : Reads target n { d with queue := queue } d' p)
    (hd : d.queue = c :: queue) (heof : c ≠ ctrl 'D') (hline : c ≠ newline) (hn : n < target) :
    Reads target (n + 1) d d' { p with bytes := c :: p.bytes } where
  queue := by
    rw [hd]
    exact congrArg (c :: ·) h.queue
  committed := h.committed
  bytes := by
    have := h.bytes
    simp [heof.symm, this]
  why := by
    have hwhy := h.why
    obtain ⟨bytes, why⟩ := p
    cases why with
    | none => simpa [hline.symm] using hwhy
    | some why =>
      cases why with
      | count => simpa [hline.symm] using hwhy
      | newline =>
        obtain ⟨init, hbytes, hinit, hlen⟩ := hwhy
        dsimp only at hbytes
        exact ⟨c :: init, by simp [hbytes], by simp [hline.symm, hinit], by simpa using hlen⟩
      | eof => exact absurd hwhy.2.1 (by omega)
      | beforeEof =>
        obtain ⟨hbytes, hlen, hleft, hrest⟩ := hwhy
        dsimp only at hbytes hlen hleft
        refine ⟨by simp [hline.symm, hbytes], by simpa using hlen, ?_, hrest⟩
        simp only [List.length_cons]
        omega
      | killed => exact hwhy

theorem Editor.read_reads (target n : Nat) (d : Editor) (hn : n ≤ target) :
    Reads target n d (Editor.read target n d).1 (Editor.read target n d).2 := by
  induction n generalizing d with
  | zero => exact ⟨rfl, rfl, List.not_mem_nil, List.not_mem_nil, rfl⟩
  | succ n ih =>
    unfold Editor.read
    split
    · next hq => exact ⟨rfl, rfl, List.not_mem_nil, List.not_mem_nil, Nat.zero_le _⟩
    · next c queue hq =>
        split
        · next heof =>
            split
            · next hlt =>
                exact ⟨rfl, rfl, List.not_mem_nil, List.not_mem_nil, Nat.zero_le _, hlt, queue,
                  heof ▸ hq⟩
            · exact ⟨hq.trans (by rw [heof]; rfl), rfl, List.not_mem_nil, rfl, by omega, by omega⟩
        · next heof =>
            split
            · next hline =>
                refine ⟨hq, rfl, ?_, [], by simp [hline], List.not_mem_nil, by simp⟩
                simpa using Ne.symm heof
            · next hline =>
                exact (ih { d with queue := queue } (by omega)).cons hq heof hline (by omega)

/-- What an event took off the queue. -/
def Event.taken {P : Type} : Event P → List UInt8
  | .byte _ c => [c]
  | .ret _ _ _ .eof _ => [ctrl 'D']
  | .ret _ _ _ _ _ => []

section History

variable {P : Type}

/-- A call returns for the reason it gives, with the characters in `pre` taken
before it: it has its count, or a newline, the first one, at the end, or nothing
and takes a `^D`, or something and the next character is a `^D`. -/
def Event.Ended (committed : List UInt8) (pre : List (Event P)) : Event P → Prop
  | .byte _ c => c ≠ ctrl 'D'
  | .ret _ target got why result =>
    ctrl 'D' ∉ got ∧ (result = if why = .killed then -1 else (got.length : Int)) ∧
    match why with
    | .count => newline ∉ got ∧ got.length = target
    | .newline => ∃ init, got = init ++ [newline] ∧ newline ∉ init ∧ init.length < target
    | .eof => got = [] ∧ 0 < target
    | .beforeEof => got ≠ [] ∧ newline ∉ got ∧
        pre.flatMap Event.taken ++ [ctrl 'D'] <+: committed
    | .killed => newline ∉ got

variable {committed : List UInt8}

theorem Event.Ended.mono {committed' : List UInt8} {pre : List (Event P)} {e : Event P}
    (h : e.Ended committed pre) (hle : committed <+: committed') : e.Ended committed' pre := by
  cases e with
  | byte q c => exact h
  | ret q target got why result =>
    refine ⟨h.1, h.2.1, ?_⟩
    have hwhy := h.2.2
    cases why with
    | beforeEof => exact ⟨hwhy.1, hwhy.2.1, hwhy.2.2.trans hle⟩
    | count | newline | eof | killed => exact hwhy

/-- Every event of a history is as it should be. -/
def AllEnded (committed : List UInt8) (log : List (Event P)) : Prop :=
  ∀ pre e post, log = pre ++ e :: post → e.Ended committed pre

theorem AllEnded.concat {log : List (Event P)} {e : Event P} (h : AllEnded committed log)
    (he : e.Ended committed log) : AllEnded committed (log ++ [e]) := by
  intro pre e' post heq
  rcases List.eq_nil_or_concat post with rfl | ⟨post, e'', rfl⟩
  · obtain ⟨rfl, hlast⟩ := List.append_inj' heq rfl
    cases hlast
    exact he
  · rw [List.concat_eq_append, ← List.cons_append, ← List.append_assoc] at heq
    exact h pre e' post (List.append_inj_left' heq rfl)

theorem AllEnded.bytes {log : List (Event P)} (q : P) {bytes : List UInt8}
    (h : AllEnded committed log) (heof : ctrl 'D' ∉ bytes) :
    AllEnded committed (log ++ bytes.map (.byte q)) := by
  induction bytes generalizing log with
  | nil => simpa using h
  | cons c bytes ih =>
    obtain ⟨hc, hrest⟩ := not_or.mp (mt List.mem_cons.mpr heof)
    have := ih (h.concat (e := .byte q c) (Ne.symm hc)) hrest
    simpa using this

theorem taken_bytes (q : P) (bytes : List UInt8) :
    (bytes.map (Event.byte q)).flatMap Event.taken = bytes := by
  rw [List.flatMap_map]
  exact List.flatMap_singleton' bytes

end History

section Served

variable {P : Type} [DecidableEq P]

/-- The bytes that were copied to `q`. -/
def copied (q : P) (log : List (Event P)) : List UInt8 :=
  log.flatMap fun
    | .byte q' c => if q' = q then [c] else []
    | .ret _ _ _ _ _ => []

/-- The bytes of the calls of `q` that have returned. -/
def returned (q : P) (log : List (Event P)) : List UInt8 :=
  log.flatMap fun
    | .byte _ _ => []
    | .ret q' _ got _ _ => if q' = q then got else []

/-- A call that has not returned. -/
structure Reading.Ok (x : Reading) : Prop where
  n : x.n + x.got.length = x.target
  eof : ctrl 'D' ∉ x.got
  line : newline ∉ x.got

/-- What the editor has served. -/
structure Served (t : State Editor P) : Prop where
  stream : t.dev.committed = t.log.flatMap Event.taken ++ t.dev.queue
  ended : AllEnded t.dev.committed t.log
  reading : ∀ q x, t.pc q = some x → x.Ok
  got : ∀ q, copied q t.log = returned q t.log ++ ((t.pc q).map Reading.got).getD []

theorem copied_append (q : P) (log log' : List (Event P)) :
    copied q (log ++ log') = copied q log ++ copied q log' := List.flatMap_append

theorem returned_append (q : P) (log log' : List (Event P)) :
    returned q (log ++ log') = returned q log ++ returned q log' := List.flatMap_append

theorem copied_bytes (q q' : P) (bytes : List UInt8) :
    copied q (bytes.map (Event.byte q')) = if q' = q then bytes else [] := by
  unfold copied
  rw [List.flatMap_map]
  by_cases hq : q' = q <;> simp [hq]

theorem returned_bytes (q q' : P) (bytes : List UInt8) :
    returned q (bytes.map (Event.byte q')) = [] := by
  unfold returned
  rw [List.flatMap_map]
  simp

theorem copied_ret (q q' : P) (target : Nat) (got : List UInt8) (why : Why) (result : Int) :
    copied q [.ret q' target got why result] = [] := rfl

theorem returned_ret (q q' : P) (target : Nat) (got : List UInt8) (why : Why) (result : Int) :
    returned q [.ret q' target got why result] = if q' = q then got else [] :=
  List.append_nil _

/-- Typing adds to the queue what it commits. -/
theorem Editor.key_commits (d : Editor) (c : UInt8) : ∃ new,
    (d.key c).queue = d.queue ++ new ∧ (d.key c).committed = d.committed ++ new := by
  have hsame : ∃ new, d.queue = d.queue ++ new ∧ d.committed = d.committed ++ new := ⟨[], by simp⟩
  unfold Editor.key
  split
  · exact hsame
  split
  · exact hsame
  split
  · exact hsame
  split
  · generalize (if c = carriageReturn then newline else c) = c
    dsimp only
    split
    · exact ⟨_, rfl, rfl⟩
    · exact hsame
  · exact hsame

theorem Editor.keys_commit (d : Editor) (cs : List UInt8) : ∃ new,
    (cs.foldl Editor.key d).queue = d.queue ++ new ∧
    (cs.foldl Editor.key d).committed = d.committed ++ new := by
  induction cs generalizing d with
  | nil => exact ⟨[], by simp⟩
  | cons c cs ih =>
    obtain ⟨first, hqueue, hcommitted⟩ := d.key_commits c
    obtain ⟨rest, hqueue', hcommitted'⟩ := ih (d.key c)
    refine ⟨first ++ rest, ?_, ?_⟩
    · rw [List.foldl_cons, hqueue', hqueue, List.append_assoc]
    · rw [List.foldl_cons, hcommitted', hcommitted, List.append_assoc]

namespace Served

variable {t : State Editor P} {q : P} {x : Reading}

theorem start : Served (Console.start P Editor.empty) where
  stream := rfl
  ended := by
    intro pre e post heq
    simp [Console.start] at heq
  reading := nofun
  got := fun _ => rfl

theorem intr (h : Served t) (cs : List UInt8) :
    Served { t with dev := cs.foldl Editor.key t.dev } := by
  obtain ⟨new, hqueue, hcommitted⟩ := t.dev.keys_commit cs
  exact
    { stream := by
        dsimp only
        rw [hqueue, hcommitted, h.stream, List.append_assoc]
      ended := fun pre e post heq => (h.ended pre e post heq).mono ⟨new, hcommitted.symm⟩
      reading := h.reading
      got := h.got }

theorem setPc (h : Served t) (hx : x.Ok) (hgot : x.got = ((t.pc q).map Reading.got).getD []) :
    Served { t with pc := set t.pc q (some x) } where
  stream := h.stream
  ended := h.ended
  reading := by
    intro q' x' hx'
    by_cases hq : q' = q
    · subst hq
      cases (set_self t.pc q' (some x)).symm.trans hx'
      exact hx
    · exact h.reading q' x' ((set_of_ne t.pc (some x) hq).symm.trans hx')
  got := by
    intro q'
    by_cases hq : q' = q
    · subst hq
      simp [h.got q', hgot]
    · simp only [set_of_ne t.pc _ hq]
      exact h.got q'

variable {d : Editor} {bytes : List UInt8}

/-- The state of a call after it has copied the bytes `p`. -/
theorem reading_ok (hx : x.Ok) {d' : Editor} {p : Progress} (hr : Reads x.target x.n d d' p)
    (hlen : p.bytes.length ≤ x.n) (hline : newline ∉ p.bytes) :
    Reading.Ok { x with n := x.n - p.bytes.length, got := x.got ++ p.bytes } where
  n := by
    have := hx.n
    simp only [List.length_append]
    omega
  eof := by simp [hx.eof, hr.bytes]
  line := by simp [hx.line, hline]

section

variable (h : Served t) (hx : t.pc q = some x)
include h hx

/-- The call of `q` sleeps. -/
theorem sleeps (hr : Reads x.target x.n t.dev d ⟨bytes, none⟩) :
    Served (⟨d, set t.pc q (some { x with n := x.n - bytes.length, got := x.got ++ bytes }),
      t.log ++ bytes.map (.byte q)⟩ : State Editor P) where
  stream := by
    have := hr.queue
    simp only [Progress.taken] at this
    simp [hr.committed, h.stream, taken_bytes, this]
  ended := by
    dsimp only
    rw [hr.committed]
    exact h.ended.bytes q hr.bytes
  reading := by
    intro q' x' hx'
    by_cases hq : q' = q
    · subst hq
      cases (set_self t.pc q' _).symm.trans hx'
      exact reading_ok (h.reading q' x hx) hr hr.why.2 hr.why.1
    · exact h.reading q' x' ((set_of_ne t.pc _ hq).symm.trans hx')
  got := by
    intro q'
    have hgot := h.got q'
    dsimp only
    rw [copied_append, returned_append, copied_bytes, returned_bytes, List.append_nil]
    by_cases hq : q' = q
    · subst hq
      simp [hgot, hx]
    · simp only [set_of_ne t.pc _ hq, if_neg (Ne.symm hq), List.append_nil]
      exact hgot

/-- The call of `q` returns. -/
theorem returns (why : Why) {result : Int}
    (hqueue : t.dev.queue = bytes ++ (if why = .eof then [ctrl 'D'] else []) ++ d.queue)
    (hcommitted : d.committed = t.dev.committed) (hbytes : ctrl 'D' ∉ bytes)
    (hended : Event.Ended t.dev.committed (t.log ++ bytes.map (.byte q))
      (.ret q x.target (x.got ++ bytes) why result)) :
    Served (⟨d, set t.pc q none,
      t.log ++ bytes.map (.byte q) ++ [.ret q x.target (x.got ++ bytes) why result]⟩ :
        State Editor P) where
  stream := by
    have htaken : (Event.ret q x.target (x.got ++ bytes) why result).taken =
        if why = .eof then [ctrl 'D'] else [] := by
      cases why <;> rfl
    simp [hcommitted, h.stream, taken_bytes, hqueue, htaken]
  ended := by
    dsimp only
    rw [hcommitted]
    exact (h.ended.bytes q hbytes).concat hended
  reading := by
    intro q' x' hx'
    by_cases hq : q' = q
    · subst hq
      cases (set_self t.pc q' none).symm.trans hx'
    · exact h.reading q' x' ((set_of_ne t.pc _ hq).symm.trans hx')
  got := by
    intro q'
    have hgot := h.got q'
    dsimp only
    simp only [copied_append, returned_append, copied_bytes, returned_bytes, copied_ret,
      returned_ret, List.append_nil]
    by_cases hq : q' = q
    · subst hq
      simp [hgot, hx]
    · rw [set_of_ne t.pc _ hq]
      simpa [Ne.symm hq] using hgot

/-- A reason to return is a true one. -/
theorem ended_of_reads {why : Why} (hr : Reads x.target x.n t.dev d ⟨bytes, some why⟩) :
    Event.Ended t.dev.committed (t.log ++ bytes.map (.byte q))
      (.ret q x.target (x.got ++ bytes) why (x.target - (x.n - bytes.length : Nat) : Int)) := by
  have hok := h.reading q x hx
  have hn := hok.n
  have hwhy := hr.why
  have heof : ctrl 'D' ∉ x.got ++ bytes := by simp [hok.eof, hr.bytes]
  have hresult (hlen : bytes.length ≤ x.n) :
      ((x.target : Int) - (x.n - bytes.length : Nat)) = ((x.got ++ bytes).length : Int) := by
    simp only [List.length_append]
    omega
  cases why with
  | count =>
    obtain ⟨hline, hlen⟩ : newline ∉ bytes ∧ bytes.length = x.n := hwhy
    refine ⟨heof, hresult hlen.le, by simp [hok.line, hline], ?_⟩
    simp only [List.length_append]
    omega
  | newline =>
    obtain ⟨init, hbytes, hinit, hlen⟩ := hwhy
    dsimp only at hbytes
    subst hbytes
    refine ⟨heof, hresult (by simpa using hlen), x.got ++ init, by simp,
      by simp [hok.line, hinit], ?_⟩
    simp only [List.length_append]
    omega
  | eof =>
    obtain ⟨rfl, htarget, hpos⟩ : bytes = [] ∧ x.n = x.target ∧ 0 < x.n := hwhy
    have hgot : x.got = [] := List.length_eq_zero_iff.mp (by omega)
    exact ⟨heof, hresult (Nat.zero_le _), by simp [hgot], by omega⟩
  | beforeEof =>
    obtain ⟨hline, hlen, hleft, rest, hrest⟩ : newline ∉ bytes ∧ bytes.length ≤ x.n ∧
      x.n - bytes.length < x.target ∧ ∃ rest, d.queue = ctrl 'D' :: rest := hwhy
    refine ⟨heof, hresult hlen, ?_, by simp [hok.line, hline], rest, ?_⟩
    · intro hnil
      have := congrArg List.length hnil
      simp only [List.length_append, List.length_nil] at this
      omega
    · have := hr.queue
      simp only [Progress.taken, hrest] at this
      simp [h.stream, taken_bytes, this]
  | killed => exact hwhy.elim

theorem run (killed : Bool) : Served (t.run editor q x killed) := by
  have hok := h.reading q x hx
  obtain ⟨⟨d, bytes, why⟩, hread⟩ : ∃ r, editor.read x.target x.n t.dev = r := ⟨_, rfl⟩
  have hr : Reads x.target x.n t.dev d ⟨bytes, why⟩ := by
    have := Editor.read_reads x.target x.n t.dev (by have := hok.n; omega)
    rw [show Editor.read x.target x.n t.dev = _ from hread] at this
    exact this
  have hqueue := hr.queue
  simp only [Progress.taken] at hqueue
  unfold State.run
  rw [hread]
  cases why with
  | some why =>
    have hended := h.ended_of_reads hx hr
    have hne : why ≠ .killed := by
      rintro rfl
      exact hr.why
    dsimp only [State.copy, State.ret]
    rw [if_neg hne]
    exact h.returns hx why (by simpa using hqueue) hr.committed hr.bytes hended
  | none =>
    dsimp only [State.copy, State.ret]
    split
    · refine h.returns hx .killed (by simpa using hqueue) hr.committed hr.bytes
        ⟨?_, rfl, ?_⟩
      · simp [hok.eof, hr.bytes]
      · simp [hok.line, hr.why.1]
    · exact h.sleeps hx hr

end

theorem step {a : Act P} {t' : State Editor P} (h : Served t)
    (hstep : Console.step editor t a = some t') : Served t' := by
  cases a with
  | intr cs =>
    cases hstep
    exact h.intr cs
  | read q n =>
    simp only [Console.step, Option.ite_none_right_eq_some] at hstep
    obtain ⟨hidle, hstep⟩ := hstep
    cases hstep
    exact h.setPc ⟨by simp, List.not_mem_nil, List.not_mem_nil⟩ (by simp [hidle])
  | run q killed =>
    simp only [Console.step] at hstep
    split at hstep
    · cases hstep
    · next x hx =>
        cases hstep
        exact h.run hx killed

end Served

end Served

/-! ### The console -/

section Refinement

variable {P : Type}

structure Rel (s : State Input P) (t : State Editor P) : Prop where
  dev : Shows s.dev t.dev (t.log.flatMap Event.taken)
  pc : s.pc = t.pc
  log : s.log = t.log

theorem rel_start (buf : Nat → UInt8) :
    Rel (start P ⟨⟨buf, 0, 0⟩, 0⟩) (start P Editor.empty) where
  dev := ⟨Fifo.holds_nil buf, rfl, List.not_mem_nil, rfl⟩
  pc := rfl
  log := rfl

variable [DecidableEq P]

theorem Rel.run {s : State Input P} {t : State Editor P} (h : Rel s t) (q : P) (x : Reading)
    (killed : Bool) : Rel (s.run console q x killed) (t.run editor q x killed) := by
  obtain ⟨hsame, hshows⟩ := h.dev.read x.target x.n
  obtain ⟨⟨d, bytes, why⟩, hread⟩ : ∃ r, editor.read x.target x.n t.dev = r := ⟨_, rfl⟩
  obtain ⟨⟨i, p⟩, hread'⟩ : ∃ r, console.read x.target x.n s.dev = r := ⟨_, rfl⟩
  rw [show Editor.read x.target x.n t.dev = _ from hread,
    show Input.read x.target x.n s.dev = _ from hread'] at hsame hshows
  dsimp only at hsame hshows
  subst hsame
  have htaken (why : Why) (result : Int) : (t.log ++ bytes.map (Event.byte q) ++
      [Event.ret q x.target (x.got ++ bytes) why result]).flatMap Event.taken =
      t.log.flatMap Event.taken ++ (Progress.mk bytes (some why)).taken := by
    cases why <;> simp [taken_bytes, Progress.taken, Event.taken]
  unfold State.run
  rw [hread, hread']
  cases why with
  | some why =>
    refine ⟨?_, ?_, ?_⟩
    · dsimp only [State.copy, State.ret]
      rw [htaken]
      exact hshows
    · exact congrArg (set · q none) h.pc
    · dsimp only [State.copy, State.ret]
      rw [h.log]
  | none =>
    dsimp only [State.copy, State.ret]
    split
    · refine ⟨?_, congrArg (set · q none) h.pc, by dsimp only; rw [h.log]⟩
      dsimp only
      rw [htaken]
      exact hshows
    · refine ⟨?_, congrArg (set · q _) h.pc, by dsimp only; rw [h.log]⟩
      simpa [taken_bytes, Progress.taken] using hshows

theorem Rel.step {s s' : State Input P} {t : State Editor P} {a : Act P} (h : Rel s t)
    (hstep : Console.step console s a = some s') :
    ∃ t', Console.step editor t a = some t' ∧ Rel s' t' := by
  cases a with
  | intr cs =>
    cases hstep
    exact ⟨_, rfl, h.dev.keys cs, h.pc, h.log⟩
  | read q n =>
    simp only [Console.step, Option.ite_none_right_eq_some] at hstep
    obtain ⟨hidle, hstep⟩ := hstep
    cases hstep
    refine ⟨_, if_pos (h.pc ▸ hidle), h.dev, ?_, h.log⟩
    dsimp only
    rw [h.pc]
  | run q killed =>
    simp only [Console.step, h.pc] at hstep
    unfold Console.step
    dsimp only
    cases hx : t.pc q with
    | none =>
      rw [hx] at hstep
      cases hstep
    | some x =>
      rw [hx] at hstep
      cases hstep
      exact ⟨_, rfl, h.run q x killed⟩

/-- Every run of the console is one of the editor. -/
theorem editor_runs {buf : Nat → UInt8} {acts : List (Act P)} {s : State Input P}
    (hrun : exec (step console) (start P ⟨⟨buf, 0, 0⟩, 0⟩) acts = some s) :
    ∃ t, exec (step editor) (start P Editor.empty) acts = some t ∧ Rel s t ∧ Served t := by
  refine exec_history (fun acts s => ∃ t, exec (step editor) (start P Editor.empty) acts = some t ∧
    Rel s t ∧ Served t) ⟨_, rfl, rel_start buf, .start⟩ ?_ hrun
  rintro acts s a s' ⟨t, ht, hrel, hserved⟩ hstep
  obtain ⟨t', hstep', hrel'⟩ := hrel.step hstep
  exact ⟨t', exec_concat_some.mpr ⟨t, ht, hstep'⟩, hrel', hserved.step hstep'⟩

end Refinement

/-- Characters that erase. -/
def Erases (c : UInt8) : Prop := c = ctrl 'U' ∨ c = ctrl 'H' ∨ c = delete

/-- Characters that are typed into the line. -/
def Ordinary (c : UInt8) : Prop := c ≠ 0 ∧ c ≠ ctrl 'P' ∧ ¬ Erases c

namespace Input

variable (s : Input)

theorem killLine_keeps (rounds : Nat) : (killLine rounds s).r = s.r ∧
    (killLine rounds s).w = s.w ∧ (killLine rounds s).ring.data = s.ring.data := by
  induction rounds generalizing s with
  | zero => exact ⟨rfl, rfl, rfl⟩
  | succ rounds ih =>
    unfold killLine
    split
    · exact ih s.erase
    · exact ⟨rfl, rfl, rfl⟩

/-- Editing moves `e` only. -/
theorem key_erases {c : UInt8} (hc : Erases c) :
    (s.key c).r = s.r ∧ (s.key c).w = s.w ∧ (s.key c).ring.data = s.ring.data := by
  unfold key
  split
  · exact ⟨rfl, rfl, rfl⟩
  split
  · exact s.killLine_keeps _
  · next hu =>
      rw [if_pos (hc.resolve_left hu)]
      split <;> exact ⟨rfl, rfl, rfl⟩

/-- A character that is typed is stored if there is room. -/
theorem key_ordinary {c : UInt8} (hc : Ordinary c) :
    if (s.e - s.r).toNat < INPUT_BUF then
      (s.key c).ring = s.ring.push (if c = carriageReturn then newline else c)
    else s.key c = s := by
  obtain ⟨hzero, hp, herases⟩ := hc
  obtain ⟨hu, hh⟩ := not_or.mp herases
  unfold key
  rw [if_neg hp, if_neg hu, if_neg hh]
  split
  · next hroom =>
      rw [if_pos ⟨hzero, hroom⟩]
      dsimp only
      generalize (if c = carriageReturn then newline else c) = c
      split <;> rfl
  · next hroom => rw [if_neg fun h => hroom h.2]

end Input

/-- Whatever is typed and read, by any number of processes: the indices are in
order and never more than `INPUT_BUF` apart; editing keeps the committed
characters; a character is accepted if there is room; and the calls return what
those of the line editor return. The bytes they copy and the `^D`s they take are
the committed characters, in order, and each call ends for a reason. -/
theorem console_refines_editor {P : Type} [DecidableEq P] {buf : Nat → UInt8}
    {acts : List (Act P)} {s : State Input P}
    (hrun : exec (step console) (start P ⟨⟨buf, 0, 0⟩, 0⟩) acts = some s) :
    ((s.dev.w - s.dev.r).toNat ≤ (s.dev.e - s.dev.r).toNat ∧
      (s.dev.e - s.dev.r).toNat ≤ INPUT_BUF) ∧
    (∀ c, Erases c → (s.dev.key c).r = s.dev.r ∧ (s.dev.key c).w = s.dev.w ∧
      (s.dev.key c).ring.data = s.dev.ring.data ∧
      (s.dev.w - s.dev.r).toNat ≤ ((s.dev.key c).e - s.dev.r).toNat) ∧
    (∀ c, Ordinary c →
      if (s.dev.e - s.dev.r).toNat < INPUT_BUF then
        (s.dev.key c).ring = s.dev.ring.push (if c = carriageReturn then newline else c)
      else s.dev.key c = s.dev) ∧
    ∃ t, exec (step editor) (start P Editor.empty) acts = some t ∧ s.log = t.log ∧ s.pc = t.pc ∧
      t.dev.committed = s.log.flatMap Event.taken ++ t.dev.queue ∧
      (∀ pre e post, s.log = pre ++ e :: post → e.Ended t.dev.committed pre) ∧
      ∀ q, copied q s.log = returned q s.log ++ ((s.pc q).map Reading.got).getD [] := by
  obtain ⟨t, ht, hrel, hserved⟩ := editor_runs hrun
  have hshows := hrel.dev
  refine ⟨⟨?_, ?_⟩, ?_, fun c hc => s.dev.key_ordinary hc, t, ht, hrel.log, hrel.pc, ?_, ?_, ?_⟩
  · rw [hshows.w_sub_r, hshows.e_sub_r]
    omega
  · rw [hshows.e_sub_r]
    exact hshows.room
  · intro c hc
    obtain ⟨hr, hw, hdata⟩ := s.dev.key_erases hc
    have hkey := hshows.key c
    have hle : ((s.dev.key c).w - (s.dev.key c).r).toNat ≤
        ((s.dev.key c).e - (s.dev.key c).r).toNat := by
      rw [hkey.w_sub_r, hkey.e_sub_r]
      omega
    rw [hr, hw] at hle
    exact ⟨hr, hw, hdata, hle⟩
  · rw [hrel.log]
    exact hserved.stream
  · rw [hrel.log]
    exact hserved.ended
  · rw [hrel.log, hrel.pc]
    exact hserved.got

/-- Two readers: `ab`, a backspace, `c`, a newline and a `^D` are typed. -/
def twoReaders : List (Act (Fin 2)) :=
  [.read 0 9, .run 0 false, .intr [97, 98, 8, 99, 10, 4], .read 1 9, .run 1 false, .run 0 false]

theorem console_refines_twoReaders :
    ∃ s t, exec (step console) (start (Fin 2) ⟨⟨fun _ => 0, 0, 0⟩, 0⟩) twoReaders = some s ∧
      exec (step editor) (start (Fin 2) Editor.empty) twoReaders = some t ∧
      returned 1 s.log = [97, 99, 10] ∧ returned 0 s.log = [] ∧ t.dev.committed = [97, 99, 10, 4] ∧
      t.dev.committed = s.log.flatMap Event.taken ++ t.dev.queue := by
  have hs : (exec (step console) (start (Fin 2) ⟨⟨fun _ => 0, 0, 0⟩, 0⟩) twoReaders).isSome := by
    decide
  obtain ⟨s, hrun⟩ := Option.isSome_iff_exists.mp hs
  obtain ⟨-, -, -, t, ht, -, -, hstream, -⟩ := console_refines_editor hrun
  have hlog : (exec (step console) (start (Fin 2) ⟨⟨fun _ => 0, 0, 0⟩, 0⟩) twoReaders).map
      (fun s => (returned 1 s.log, returned 0 s.log)) = some ([97, 99, 10], []) := by decide
  have hcommitted : (exec (step editor) (start (Fin 2) Editor.empty) twoReaders).map
      (fun t => t.dev.committed) = some [97, 99, 10, 4] := by decide
  rw [hrun] at hlog
  rw [ht] at hcommitted
  simp only [Option.map_some, Option.some.injEq, Prod.mk.injEq] at hlog hcommitted
  exact ⟨s, t, hrun, ht, hlog.1, hlog.2, hcommitted, hstream⟩

end Xv6.Console
