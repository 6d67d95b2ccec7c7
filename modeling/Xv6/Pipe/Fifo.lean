import Xv6.Pipe.Basic

/-!
The bytes that `piperead` hands out are those that `pipewrite` took, in the
same order, and the two counters of the pipe tell how many are on their way,
also after they have wrapped around. What was taken are the bytes that the
`pipewrite` calls were given, and what was handed out are the bytes that the
`piperead` calls return.
-/

namespace Xv6.Pipe

open Prog Transition

/-- The bytes of the call that are in the pipe or have been. -/
def Call.stored : Call → List UInt8
  | .write bytes i => bytes.take i
  | _ => []

def Call.got : Call → List UInt8
  | .read _ got => got
  | _ => []

/-- How the call was made. -/
def Call.act : Call → Act
  | .write bytes _ => .pipewrite bytes
  | .read n _ => .piperead n
  | .close writable => .pipeclose writable

/-- `pipewrite` returns the number of its bytes when all are stored, and `piperead`
that of the bytes it copied; -1 says that it gave up. -/
def Call.Returns : Call → Int → Prop
  | .write bytes i, r => r = bytes.length ∧ bytes.take i = bytes ∨ r = -1
  | .read n got, r => r = got.length ∧ got.length ≤ n ∨ r = -1 ∧ got = []
  | .close _, _ => True

def At.call : At → Call
  | .write bytes i | .writeFull bytes i | .writeSleep bytes i | .writeWake bytes i =>
    .write bytes i
  | .read n | .readSleep n => .read n []
  | .copy n got | .readWake n got => .read n got
  | .close writable | .closeWake writable => .close writable
  | .leave c _ => c

/-- The call in progress. -/
def Pc.call : Pc → List Call
  | .idle => []
  | .waiting k | .holding k => [k.call]

/-- What a call knows about its loop when the loop is over. -/
def At.Fits : At → Prop
  | .writeWake bytes i => bytes.length ≤ i
  | .copy n got | .readWake n got => got.length ≤ n
  | .leave c result => c.Returns result
  | _ => True

def Pc.Fits : Pc → Prop
  | .idle => True
  | .waiting k | .holding k => k.Fits

def Act.IsCall : Act → Bool
  | .pipewrite _ | .piperead _ | .pipeclose _ => true
  | _ => false

section Histories

variable {P : Type} [DecidableEq P]

/-- The calls of a process, in order: those that returned and the one in progress. -/
def State.calls (s : State P) (p : P) : List Call :=
  (s.done.filter (·.1 = p)).map (·.2.1) ++ (s.pc p).call

/-- The calls that a process makes in a run. -/
def made (p : P) (ls : List (P × Act)) : List Act :=
  (ls.filter fun l => l.1 = p ∧ l.2.IsCall).map Prod.snd

/-- The bytes of one process in a history. -/
def bytesOf (p : P) (l : List (P × UInt8)) : List UInt8 := (l.filter (·.1 = p)).map Prod.snd

theorem bytesOf_append (p q : P) (l : List (P × UInt8)) (x : List UInt8) :
    bytesOf q (l ++ x.map (Prod.mk p)) = bytesOf q l ++ if p = q then x else [] := by
  unfold bytesOf
  by_cases h : p = q <;> simp [h, List.filter_map, Function.comp_def]

theorem made_concat (p q : P) (ls : List (P × Act)) (a : Act) :
    made q (ls ++ [(p, a)]) = made q ls ++ if p = q ∧ a.IsCall then [a] else [] := by
  unfold made
  by_cases h : p = q ∧ a.IsCall
  · simp [h]
  · rw [List.filter_append, List.filter_cons_of_neg (by simpa using h), if_neg h]
    simp

theorem made_of_not_isCall (q : P) {p : P} {a : Act} (ha : a.IsCall = false)
    (ls : List (P × Act)) : made q (ls ++ [(p, a)]) = made q ls := by
  rw [made_concat]
  simp [ha]

/-- The ring holds what was accepted and not yet delivered, and the histories tell
what the calls in `ls` have done. -/
structure Recorded (ls : List (P × Act)) (s : State P) : Prop where
  holds : s.ring.Holds (s.accepted.map Prod.snd) (s.delivered.map Prod.snd)
  made : ∀ p, (s.calls p).map Call.act = made p ls
  stored : ∀ p, bytesOf p s.accepted = (s.calls p).flatMap Call.stored
  got : ∀ p, bytesOf p s.delivered = (s.calls p).flatMap Call.got
  returned : ∀ x ∈ s.done, x.2.1.Returns x.2.2
  fits : ∀ p, (s.pc p).Fits

theorem PIPESIZE_lt : PIPESIZE < 2 ^ 32 := by decide

theorem PIPESIZE_dvd : PIPESIZE ∣ 2 ^ 32 := by decide

theorem recorded_pipealloc (data : Nat → UInt8) : Recorded [] (pipealloc P data) := by
  refine ⟨Fifo.holds_nil data, fun _ => rfl, fun _ => rfl, fun _ => rfl, ?_, fun _ => trivial⟩
  simp [pipealloc]

variable {ls : List (P × Act)} {s u : State P} {p : P} {pc : Pc}

theorem calls_setPc_of_ne {q : P} {d : List (Call × Int)} (hne : q ≠ p) (hpc : u.pc = s.pc)
    (hdone : u.done = s.done ++ d.map (Prod.mk p)) : (u.setPc p pc).calls q = s.calls q := by
  simp [State.calls, State.setPc, set_of_ne _ _ hne, hpc, hdone, List.filter_map,
    Function.comp_def, Ne.symm hne]

theorem calls_setPc_self {d : List (Call × Int)} (hdone : u.done = s.done ++ d.map (Prod.mk p)) :
    (u.setPc p pc).calls p =
      (s.done.filter (·.1 = p)).map (·.2.1) ++ (d.map Prod.fst ++ pc.call) := by
  simp [State.calls, State.setPc, hdone, List.filter_map, Function.comp_def]

section

variable (h : Recorded ls s)
include h

theorem Recorded.fits_setPc (hpc : u.pc = s.pc) (hfits : pc.Fits) (q : P) :
    ((u.setPc p pc).pc q).Fits := by
  by_cases hne : q = p
  · subst hne
    simpa [State.setPc] using hfits
  · simpa [State.setPc, set_of_ne _ _ hne, hpc] using h.fits q

/-- The call of `p` goes on from `c` to `e`: it stores the bytes `x`, copies the
bytes `y`, and perhaps returns. -/
theorem Recorded.change {a : Act} {c e : Call} {d : List (Call × Int)} {x y : List UInt8}
    (ha : a.IsCall = false) (hc : (s.pc p).call = [c]) (hpc : u.pc = s.pc)
    (hdone : u.done = s.done ++ d.map (Prod.mk p)) (he : d.map Prod.fst ++ pc.call = [e])
    (hact : e.act = c.act) (hacc : u.accepted = s.accepted ++ x.map (Prod.mk p))
    (hdel : u.delivered = s.delivered ++ y.map (Prod.mk p)) (hstored : e.stored = c.stored ++ x)
    (hgot : e.got = c.got ++ y)
    (hholds : u.ring.Holds (u.accepted.map Prod.snd) (u.delivered.map Prod.snd))
    (hreturned : ∀ e ∈ d, e.1.Returns e.2) (hfits : pc.Fits) :
    Recorded (ls ++ [(p, a)]) (u.setPc p pc) := by
  have hself : (u.setPc p pc).calls p = (s.done.filter (·.1 = p)).map (·.2.1) ++ [e] := by
    rw [calls_setPc_self hdone, he]
  have hold : s.calls p = (s.done.filter (·.1 = p)).map (·.2.1) ++ [c] := by
    rw [State.calls, hc]
  refine ⟨hholds, ?_, ?_, ?_, ?_, h.fits_setPc hpc hfits⟩
  · intro q
    rw [made_of_not_isCall q ha, ← h.made q]
    by_cases hq : q = p
    · subst hq
      simp [hself, hold, hact]
    · rw [calls_setPc_of_ne hq hpc hdone]
  · intro q
    change bytesOf q u.accepted = _
    rw [hacc, bytesOf_append, h.stored q]
    by_cases hq : q = p
    · subst hq
      simp [hself, hold, hstored]
    · simp [calls_setPc_of_ne hq hpc hdone, Ne.symm hq]
  · intro q
    change bytesOf q u.delivered = _
    rw [hdel, bytesOf_append, h.got q]
    by_cases hq : q = p
    · subst hq
      simp [hself, hold, hgot]
    · simp [calls_setPc_of_ne hq hpc hdone, Ne.symm hq]
  · intro e he
    change e ∈ u.done at he
    rw [hdone, List.mem_append, List.mem_map] at he
    rcases he with he | ⟨e', he', rfl⟩
    · exact h.returned e he
    · exact hreturned e' he'

/-- The call of `p` goes on without touching the pipe. -/
theorem Recorded.goto {a : Act} {k : At} (ha : a.IsCall = false) (hk : (s.pc p).call = [k.call])
    (hpc : u.pc = s.pc) (hring : u.ring = s.ring) (hdone : u.done = s.done)
    (hacc : u.accepted = s.accepted) (hdel : u.delivered = s.delivered) (hcall : pc.call = [k.call])
    (hfits : pc.Fits) : Recorded (ls ++ [(p, a)]) (u.setPc p pc) :=
  h.change (x := []) (y := []) (d := []) ha hk hpc (by simp [hdone]) hcall rfl (by simp [hacc])
    (by simp [hdel]) (by simp) (by simp) (by rw [hring, hacc, hdel]; exact h.holds) (by simp) hfits

theorem Recorded.ret {k : At} (hpc : s.pc p = .holding k) {r : Int} (hr : k.call.Returns r) :
    Recorded (ls ++ [(p, .run)]) (s.ret p k.call r) :=
  h.change (x := []) (y := []) (d := [(k.call, r)]) (u := { s with
    lock := none
    done := s.done ++ [(p, k.call, r)] }) rfl (by rw [hpc]; rfl) rfl rfl rfl rfl (by simp)
    (by simp) (by simp) (by simp) h.holds (by simpa using hr) trivial

theorem Recorded.start {k : At} (hpc : s.pc p = .idle) (hcall : k.call.act.IsCall = true)
    (hstored : k.call.stored = []) (hgot : k.call.got = []) (hfits : k.Fits) :
    Recorded (ls ++ [(p, k.call.act)]) (s.setPc p (.waiting k)) := by
  have hself : (s.setPc p (.waiting k)).calls p = s.calls p ++ [k.call] := by
    rw [calls_setPc_self (s := s) (d := []) (by simp), State.calls, hpc]
    simp [Pc.call]
  have hother (q : P) (hq : q ≠ p) : (s.setPc p (.waiting k)).calls q = s.calls q :=
    calls_setPc_of_ne (d := []) hq rfl (by simp)
  refine ⟨h.holds, ?_, ?_, ?_, h.returned, h.fits_setPc rfl hfits⟩
  all_goals
    intro q
    by_cases hq : q = p
  · subst hq
    simp [hself, made_concat, hcall, h.made q]
  · simp [hother q hq, made_concat, Ne.symm hq, h.made q]
  · subst hq
    rw [hself, List.flatMap_append, ← h.stored q]
    simp [hstored, State.setPc]
  · rw [hother q hq]
    exact h.stored q
  · subst hq
    rw [hself, List.flatMap_append, ← h.got q]
    simp [hgot, State.setPc]
  · rw [hother q hq]
    exact h.got q

theorem recorded_run {k : At} (hpc : s.pc p = .holding k) :
    Recorded (ls ++ [(p, .run)]) (run s p k) := by
  have hcall : (s.pc p).call = [k.call] := by rw [hpc]; rfl
  have hfits : k.Fits := by
    have := h.fits p
    rwa [hpc] at this
  have hgoto {u : State P} {k' : At} (hpc : u.pc = s.pc) (hring : u.ring = s.ring)
      (hdone : u.done = s.done) (hacc : u.accepted = s.accepted)
      (hdel : u.delivered = s.delivered) (hk' : k'.call = k.call) (hfits' : k'.Fits) :
      Recorded (ls ++ [(p, .run)]) (u.goto p k') :=
    h.goto rfl hcall hpc hring hdone hacc hdel (by rw [← hk']; rfl) hfits'
  cases k with
  | write bytes i =>
    simp only [run]
    split
    · next hi => exact hgoto rfl rfl rfl rfl rfl rfl (List.getElem?_eq_none_iff.mp hi)
    · next b hb =>
        split
        · split
          · exact h.ret hpc (Or.inr rfl)
          · exact hgoto rfl rfl rfl rfl rfl rfl trivial
        · next hfull =>
            refine h.change (x := [b]) (y := []) (d := []) (u := s.store p b)
              (e := .write bytes (i + 1)) rfl hcall rfl (by simp [State.store]) rfl rfl rfl
              (by simp [State.store]) ?_ rfl ?_ (by simp) trivial
            · simp only [Call.stored, At.call, List.take_add_one, hb, Option.toList_some]
            · simpa [State.store] using h.holds.push PIPESIZE_lt PIPESIZE_dvd hfull b
  | copy n got =>
    simp only [run]
    split
    · next hmore =>
        refine h.change (x := []) (y := [(s.load p).1]) (d := []) (u := (s.load p).2)
          (e := .read n (got ++ [(s.load p).1])) rfl hcall rfl (by simp [State.load]) rfl rfl
          (by simp [State.load]) rfl rfl rfl ?_ (by simp) ?_
        · simpa [State.load] using h.holds.pop PIPESIZE_lt PIPESIZE_dvd hmore.2
        · have := hmore.1
          simpa [Pc.Fits, At.Fits] using this
    · exact hgoto rfl rfl rfl rfl rfl rfl hfits
  | read n =>
    simp only [run]
    split
    · split
      · exact h.ret hpc (Or.inr ⟨rfl, rfl⟩)
      · exact hgoto rfl rfl rfl rfl rfl rfl trivial
    · exact hgoto rfl rfl rfl rfl rfl rfl (Nat.zero_le n)
  | writeSleep | readSleep =>
    exact h.goto rfl hcall rfl rfl rfl rfl rfl rfl trivial
  | writeFull => exact hgoto rfl rfl rfl rfl rfl rfl trivial
  | writeWake bytes i =>
    exact hgoto rfl rfl rfl rfl rfl rfl (Or.inl ⟨rfl, List.take_of_length_le hfits⟩)
  | readWake n got => exact hgoto rfl rfl rfl rfl rfl rfl (Or.inl ⟨rfl, hfits⟩)
  | close writable => cases writable <;> exact hgoto rfl rfl rfl rfl rfl rfl trivial
  | closeWake => exact hgoto rfl rfl rfl rfl rfl rfl trivial
  | leave c r => exact h.ret hpc hfits

theorem recorded_step {s' : State P} {l : P × Act} (hstep : step s l = some s') :
    Recorded (ls ++ [l]) s' := by
  obtain ⟨p, a⟩ := l
  cases step_cases hstep with
  | pipewrite bytes hpc =>
    exact h.start (k := .write bytes 0) hpc rfl (List.take_zero (l := bytes)) rfl trivial
  | piperead n hpc => exact h.start (k := .read n) hpc rfl rfl rfl trivial
  | pipeclose writable hpc => exact h.start (k := .close writable) hpc rfl rfl rfl trivial
  | acquire k hpc =>
    have hfits := h.fits p
    rw [hpc] at hfits
    exact h.goto (k := k) (u := { s with lock := some p }) rfl (by rw [hpc]; rfl) rfl rfl
      rfl rfl rfl rfl hfits
  | run k hpc => exact recorded_run h hpc
  | kill =>
    exact { h with made := fun q => (h.made q).trans (made_of_not_isCall q rfl ls).symm }

end

/-- In every state of every run at most `PIPESIZE` bytes are in the pipe, the bytes
copied out are the first of those stored, and the counters count the others. The
calls of a process are those it made in the run; the bytes it stored are those its
`pipewrite` calls were given, up to where they came, and the bytes it took out are
those its `piperead` calls return. A call that returned has the right result. -/
theorem pipe_is_fifo (data : Nat → UInt8) (ls : List (P × Act))
    (hrun : exec step (pipealloc P data) ls = some s) :
    (s.ring.nwrite - s.ring.nread).toNat ≤ PIPESIZE ∧
    (∃ rest, s.accepted.map Prod.snd = s.delivered.map Prod.snd ++ rest ∧
      rest.length = (s.ring.nwrite - s.ring.nread).toNat) ∧
    (∀ p, (s.calls p).map Call.act = made p ls ∧
      bytesOf p s.accepted = (s.calls p).flatMap Call.stored ∧
      bytesOf p s.delivered = (s.calls p).flatMap Call.got) ∧
    ∀ x ∈ s.done, x.2.1.Returns x.2.2 := by
  have h : Recorded ls s :=
    exec_history Recorded (recorded_pipealloc data) (fun _ _ _ _ h => recorded_step h) hrun
  obtain ⟨hle, hrest⟩ := h.holds.split PIPESIZE_lt
  exact ⟨hle, hrest, fun p => ⟨h.made p, h.stored p, h.got p⟩, h.returned⟩

end Histories

/-- Two writers store bytes in turn, and a reader takes two of the three. -/
def twoWriters : List (Fin 3 × Act) :=
  [(0, .pipewrite [7, 8]), (1, .pipewrite [9]), (2, .piperead 2), (1, .acquire)] ++
    List.replicate 4 (1, .run) ++ [(0, .acquire)] ++ List.replicate 5 (0, .run) ++
    [(2, .acquire)] ++ List.replicate 6 (2, .run)

theorem pipe_is_fifo_twoWriters :
    ∃ s, exec step (pipealloc (Fin 3) (fun _ => 0)) twoWriters = some s ∧
      s.done = [(1, .write [9] 1, 1), (0, .write [7, 8] 2, 2), (2, .read 2 [9, 7], 2)] ∧
      bytesOf 2 s.delivered = [9, 7] ∧
      ∃ rest, s.accepted.map Prod.snd = s.delivered.map Prod.snd ++ rest ∧
        rest.length = (s.ring.nwrite - s.ring.nread).toNat := by
  obtain ⟨s, hs, hdone, hcalls⟩ : ∃ s,
      exec step (pipealloc (Fin 3) (fun _ => 0)) twoWriters = some s ∧
      s.done = [(1, .write [9] 1, 1), (0, .write [7, 8] 2, 2), (2, .read 2 [9, 7], 2)] ∧
      s.calls 2 = [.read 2 [9, 7]] := by decide +kernel
  obtain ⟨-, hrest, hhistory, -⟩ := pipe_is_fifo (fun _ => 0) twoWriters hs
  refine ⟨s, hs, hdone, ?_, hrest⟩
  rw [(hhistory 2).2.2, hcalls]
  rfl

end Xv6.Pipe
