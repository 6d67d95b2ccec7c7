import Xv6.Pipe.Basic

/-!
Who sleeps on a pipe while its lock is free: readers only on an empty pipe that
may still be written, writers only on a full one that may still be read. Each
call wakes the other side before it lets the lock go, with one exception: a
`pipewrite` that gives up on a full pipe has perhaps stored bytes and wakes
nobody.
-/

namespace Xv6.Pipe

open Prog Transition

section Sleepers

variable {P : Type} {s : State P}

/-- A process sleeps on `&p->nread` only while there is nothing to read. -/
def ReadersOk (s : State P) : Prop :=
  ∀ q, s.sleeping q = some .nread → s.ring.Empty ∧ s.writeopen = true

/-- A process sleeps on `&p->nwrite` only while there is no room. -/
def WritersOk (s : State P) : Prop :=
  ∀ q, s.sleeping q = some .nwrite → s.ring.Full ∧ s.readopen = true

/-- Before it lets the lock go, the call wakes the readers. -/
def At.WakesReaders : At → Prop
  | .write _ _ | .writeFull _ _ | .writeWake _ _ => True
  | .closeWake writable => writable = true
  | _ => False

/-- Before it lets the lock go, the call wakes the writers. -/
def At.WakesWriters : At → Prop
  | .copy _ _ | .readWake _ _ => True
  | .closeWake writable => writable = false
  | _ => False

/-- What a call found under the lock before it decided to sleep. -/
def At.Tested (s : State P) : At → Prop
  | .writeFull _ _ | .writeSleep _ _ => s.ring.Full ∧ s.readopen = true
  | .readSleep _ => s.ring.Empty ∧ s.writeopen = true
  | _ => True

structure Guarded (s : State P) (k : At) : Prop where
  readers : k.WakesReaders ∨ ReadersOk s
  writers : k.WakesWriters ∨ WritersOk s
  tested : k.Tested s

theorem not_empty_of_full (h : s.ring.Full) : ¬ s.ring.Empty := by
  intro hempty
  unfold Fifo.Full at h
  unfold Fifo.Empty at hempty
  rw [hempty] at h
  exact absurd h (by simp [PIPESIZE])

theorem ReadersOk.of_awake (h : ∀ q, s.sleeping q ≠ some .nread) : ReadersOk s :=
  fun q hq => absurd hq (h q)

theorem WritersOk.of_awake (h : ∀ q, s.sleeping q ≠ some .nwrite) : WritersOk s :=
  fun q hq => absurd hq (h q)

theorem not_sleeping_wakeup (s : State P) (c : Chan) (q : P) :
    (s.wakeup c).sleeping q ≠ some c := by
  simp only [State.wakeup]
  split
  · simp
  · assumption

theorem sleeping_of_wakeup {c d : Chan} {q : P} (h : (s.wakeup c).sleeping q = some d) :
    s.sleeping q = some d := by
  simp only [State.wakeup] at h
  split at h
  · cases h
  · exact h

theorem ReadersOk.wakeup (h : ReadersOk s) (c : Chan) : ReadersOk (s.wakeup c) :=
  fun q hq => h q (sleeping_of_wakeup hq)

theorem WritersOk.wakeup (h : WritersOk s) (c : Chan) : WritersOk (s.wakeup c) :=
  fun q hq => h q (sleeping_of_wakeup hq)

theorem ReadersOk.wakeup_nread (s : State P) : ReadersOk (s.wakeup .nread) :=
  .of_awake (not_sleeping_wakeup s .nread)

theorem WritersOk.wakeup_nwrite (s : State P) : WritersOk (s.wakeup .nwrite) :=
  .of_awake (not_sleeping_wakeup s .nwrite)

structure Inv (s : State P) : Prop where
  lock : ∀ p k, s.pc p = .holding k → s.lock = some p
  held : ∀ p k, s.pc p = .holding k → Guarded s k
  waits : ∀ p k (u : State P), s.pc p = .waiting k → k.Tested u
  free : s.lock = none → ReadersOk s ∧ WritersOk s

theorem inv_pipealloc (data : Nat → UInt8) : Inv (pipealloc P data) :=
  ⟨nofun, nofun, nofun, fun _ => ⟨nofun, nofun⟩⟩

end Sleepers

section Steps

variable {P : Type} [DecidableEq P] {s s' : State P} {p : P} {k : At}

variable {q : P} {n : Nat}

theorem sleeping_of_kill {c : Chan} (h : (s.kill p).sleeping q = some c) :
    s.sleeping q = some c := by
  by_cases hq : q = p
  · subst hq
    simp [State.kill] at h
  · simpa [State.kill, set_of_ne _ _ hq] using h

/-- `pipewrite` is about to return -1 from a full pipe. -/
def Abandons (s : State P) (p : P) : Prop :=
  match s.pc p with
  | .holding (.write bytes i) => i < bytes.length ∧ s.ring.Full ∧ s.GivesUp p
  | _ => False

instance (s : State P) (p : P) : Decidable (Abandons s p) := by
  unfold Abandons
  split <;> infer_instance

/-- When a `pipewrite` gives up on a full pipe, no process sleeps on
`&p->nread`. -/
def Heard (s : State P) (l : P × Act) : Prop :=
  l.2 = .run → Abandons s l.1 → ∀ q, s.sleeping q ≠ some .nread

instance [Fintype P] (s : State P) (l : P × Act) : Decidable (Heard s l) :=
  inferInstanceAs (Decidable (_ → _ → _))

/-- What the next stretch of a call leads to: the process goes on under the
lock, or gives it up with the sleepers in order. -/
inductive Outcome (s : State P) (p : P) : State P → Prop
  | stays (t : State P) (k : At) (hlock : t.lock = s.lock) (hpc : t.pc = s.pc)
      (h : Guarded t k) : Outcome s p (t.goto p k)
  | leaves (t : State P) (pc : Pc) (hlock : t.lock = none) (hpc : t.pc = s.pc)
      (hout : ∀ k, pc ≠ .holding k) (hwait : ∀ k (u : State P), pc = .waiting k → k.Tested u)
      (hr : ReadersOk t) (hw : WritersOk t) : Outcome s p (t.setPc p pc)

theorem outcome_ret (hr : ReadersOk s) (hw : WritersOk s) (c : Call) (result : Int) :
    Outcome s p (s.ret p c result) :=
  .leaves _ _ rfl rfl nofun nofun hr hw

theorem outcome_write {bytes : List UInt8} {i : Nat} (hpc : s.pc p = .holding (.write bytes i))
    (h : Guarded s (.write bytes i)) (hup : Heard s (p, .run)) :
    Outcome s p (run s p (.write bytes i)) := by
  have hw : WritersOk s := h.writers.resolve_left id
  simp only [run]
  split
  · exact .stays s _ rfl rfl ⟨.inl trivial, .inr hw, trivial⟩
  · next b hb =>
      have hi : i < bytes.length := (List.getElem?_eq_some_iff.mp hb).1
      split
      · next hfull =>
          split
          · next hgive =>
              have hup' := hup rfl (by simp only [Abandons, hpc]; exact ⟨hi, hfull, hgive⟩)
              exact outcome_ret (.of_awake hup') hw _ _
          · next hgive =>
              simp only [State.GivesUp, not_or, Bool.not_eq_false] at hgive
              exact .stays s _ rfl rfl ⟨.inl trivial, .inr hw, hfull, hgive.1⟩
      · next hfull =>
          -- a sleeping writer would mean that the pipe was full
          exact .stays _ _ rfl rfl
            ⟨.inl trivial, .inr (.of_awake fun q hq => hfull (hw q hq).1), trivial⟩

theorem outcome_read (h : Guarded s (.read n)) : Outcome s p (run s p (.read n)) := by
  have hr : ReadersOk s := h.readers.resolve_left id
  have hw : WritersOk s := h.writers.resolve_left id
  simp only [run]
  split
  · next hempty =>
      split
      · exact outcome_ret hr hw _ _
      · exact .stays s _ rfl rfl ⟨.inr hr, .inr hw, hempty⟩
  · exact .stays s _ rfl rfl ⟨.inr hr, .inl trivial, trivial⟩

theorem outcome_copy {got : List UInt8} (h : Guarded s (.copy n got)) :
    Outcome s p (run s p (.copy n got)) := by
  have hr : ReadersOk s := h.readers.resolve_left id
  simp only [run]
  split
  · next hmore =>
      exact .stays _ _ rfl rfl
        ⟨.inr (.of_awake fun q hq => hmore.2 (hr q hq).1), .inl trivial, trivial⟩
  · exact .stays s _ rfl rfl ⟨.inr hr, .inl trivial, trivial⟩

theorem outcome_sleep_nwrite {bytes : List UInt8} (h : Guarded s (.writeSleep bytes n)) :
    Outcome s p (run s p (.writeSleep bytes n)) := by
  have hr : ReadersOk s := h.readers.resolve_left id
  refine .leaves _ _ rfl rfl nofun (by rintro k u ⟨⟩; trivial) ?_ (fun q _ => h.tested)
  intro q hq
  by_cases hqp : q = p
  · subst hqp
    simp at hq
  · exact hr q (by simpa [set_of_ne _ _ hqp] using hq)

theorem outcome_sleep_nread (h : Guarded s (.readSleep n)) :
    Outcome s p (run s p (.readSleep n)) := by
  have hw : WritersOk s := h.writers.resolve_left id
  refine .leaves _ _ rfl rfl nofun (by rintro k u ⟨⟩; trivial) (fun q _ => h.tested) ?_
  intro q hq
  by_cases hqp : q = p
  · subst hqp
    simp at hq
  · exact hw q (by simpa [set_of_ne _ _ hqp] using hq)

theorem outcome_close {writable : Bool} (h : Guarded s (.close writable)) :
    Outcome s p (run s p (.close writable)) := by
  have hr : ReadersOk s := h.readers.resolve_left id
  have hw : WritersOk s := h.writers.resolve_left id
  cases writable with
  | true => exact .stays _ _ rfl rfl ⟨.inl rfl, .inr hw, trivial⟩
  | false => exact .stays _ _ rfl rfl ⟨.inr hr, .inl rfl, trivial⟩

theorem outcome_closeWake {writable : Bool} (h : Guarded s (.closeWake writable)) :
    Outcome s p (run s p (.closeWake writable)) := by
  cases writable with
  | true =>
    have hw : WritersOk s := h.writers.resolve_left nofun
    exact .stays _ _ rfl rfl ⟨.inr (.wakeup_nread s), .inr (hw.wakeup .nread), trivial⟩
  | false =>
    have hr : ReadersOk s := h.readers.resolve_left nofun
    exact .stays _ _ rfl rfl ⟨.inr (hr.wakeup .nwrite), .inr (.wakeup_nwrite s), trivial⟩

theorem outcome_run (hpc : s.pc p = .holding k) (h : Guarded s k) (hup : Heard s (p, .run)) :
    Outcome s p (run s p k) := by
  cases k with
  | write bytes i => exact outcome_write hpc h hup
  | writeFull bytes i =>
    have hw : WritersOk s := h.writers.resolve_left id
    exact .stays _ _ rfl rfl ⟨.inr (.wakeup_nread s), .inr (hw.wakeup .nread), h.tested⟩
  | writeSleep bytes i => exact outcome_sleep_nwrite h
  | writeWake bytes i =>
    have hw : WritersOk s := h.writers.resolve_left id
    exact .stays _ _ rfl rfl ⟨.inr (.wakeup_nread s), .inr (hw.wakeup .nread), trivial⟩
  | read n => exact outcome_read h
  | readSleep n => exact outcome_sleep_nread h
  | copy n got => exact outcome_copy h
  | readWake n got =>
    have hr : ReadersOk s := h.readers.resolve_left id
    exact .stays _ _ rfl rfl ⟨.inr (hr.wakeup .nwrite), .inr (.wakeup_nwrite s), trivial⟩
  | close writable => exact outcome_close h
  | closeWake writable => exact outcome_closeWake h
  | leave c result =>
    exact outcome_ret (h.readers.resolve_left id) (h.writers.resolve_left id) c result

theorem pc_setPc {pc pc' : Pc} (h : (s.setPc p pc).pc q = pc') :
    q = p ∧ pc = pc' ∨ q ≠ p ∧ s.pc q = pc' := by
  by_cases hq : q = p
  · subst hq
    exact .inl ⟨rfl, by simpa [State.setPc] using h⟩
  · exact .inr ⟨hq, by simpa [State.setPc, set_of_ne _ _ hq] using h⟩

theorem Inv.start (h : Inv s) (hk : ∀ u : State P, k.Tested u) :
    Inv (s.setPc p (.waiting k)) := by
  refine ⟨?_, ?_, ?_, h.free⟩
  · intro q k' hq
    rcases pc_setPc hq with ⟨-, hw⟩ | ⟨-, hq⟩
    · cases hw
    · exact h.lock q k' hq
  · intro q k' hq
    rcases pc_setPc hq with ⟨-, hw⟩ | ⟨-, hq⟩
    · cases hw
    · exact ⟨(h.held q k' hq).readers, (h.held q k' hq).writers, (h.held q k' hq).tested⟩
  · intro q k' u hq
    rcases pc_setPc hq with ⟨-, hw⟩ | ⟨-, hq⟩
    · cases hw
      exact hk u
    · exact h.waits q k' u hq

/-- A step of the process that holds the lock, or takes it: no other process
is inside. -/
theorem Inv.alone {t : State P} {pc : Pc} (h : Inv s) (hpc : t.pc = s.pc)
    (hothers : ∀ q k, q ≠ p → s.pc q ≠ .holding k)
    (hheld : ∀ k, pc = .holding k → t.lock = some p ∧ Guarded t k)
    (hwait : ∀ k (u : State P), pc = .waiting k → k.Tested u)
    (hfree : t.lock = none → ReadersOk t ∧ WritersOk t) : Inv (t.setPc p pc) := by
  refine ⟨?_, ?_, ?_, hfree⟩
  · intro q k hq
    rcases pc_setPc hq with ⟨rfl, hk⟩ | ⟨hne, hq⟩
    · exact (hheld k hk).1
    · exact absurd (hpc ▸ hq) (hothers q k hne)
  · intro q k hq
    rcases pc_setPc hq with ⟨rfl, hk⟩ | ⟨hne, hq⟩
    · obtain ⟨-, hr, hw, ht⟩ := hheld k hk
      exact ⟨hr, hw, ht⟩
    · exact absurd (hpc ▸ hq) (hothers q k hne)
  · intro q k u hq
    rcases pc_setPc hq with ⟨rfl, hk⟩ | ⟨hne, hq⟩
    · exact hwait k u hk
    · exact h.waits q k u (hpc ▸ hq)

theorem Inv.acquire (h : Inv s) (hpc : s.pc p = .waiting k) (hlock : s.lock = none) :
    Inv ({ s with lock := some p }.goto p k) := by
  obtain ⟨hr, hw⟩ := h.free hlock
  refine h.alone (t := { s with lock := some p }) rfl ?_ ?_ nofun nofun
  · intro q k' _ hq
    have := h.lock q k' hq
    rw [hlock] at this
    cases this
  · rintro k' ⟨⟩
    exact ⟨rfl, .inr hr, .inr hw, h.waits p k _ hpc⟩

theorem Inv.outcome (h : Inv s) (hpc : s.pc p = .holding k) (hout : Outcome s p s') :
    Inv s' := by
  have hlock := h.lock p k hpc
  have hothers (q : P) (k' : At) (hne : q ≠ p) : s.pc q ≠ .holding k' := by
    intro hq
    have := h.lock q k' hq
    rw [hlock] at this
    exact hne (Option.some.inj this).symm
  cases hout with
  | stays t k' ht hpc' hk =>
    have hlock' : t.lock = some p := ht.trans hlock
    refine h.alone hpc' hothers ?_ nofun ?_
    · rintro k'' ⟨⟩
      exact ⟨hlock', hk⟩
    · intro hnone
      rw [hlock'] at hnone
      cases hnone
  | leaves t pc ht hpc' hout hwait hr hw =>
    exact h.alone hpc' hothers (fun k' hk' => absurd hk' (hout k')) hwait (fun _ => ⟨hr, hw⟩)

theorem Inv.kill (h : Inv s) : Inv (s.kill p) := by
  have hreaders (hr : ReadersOk s) : ReadersOk (s.kill p) :=
    fun q hq => hr q (sleeping_of_kill hq)
  have hwriters (hw : WritersOk s) : WritersOk (s.kill p) :=
    fun q hq => hw q (sleeping_of_kill hq)
  refine ⟨h.lock, ?_, h.waits, fun hlock => (h.free hlock).imp hreaders hwriters⟩
  intro q k hq
  obtain ⟨hr, hw, ht⟩ := h.held q k hq
  exact ⟨hr.imp_right hreaders, hw.imp_right hwriters, ht⟩

theorem inv_step {l : P × Act} (h : Inv s) (hup : Heard s l) (hstep : step s l = some s') :
    Inv s' := by
  obtain ⟨p, a⟩ := l
  cases step_cases hstep with
  | pipewrite | piperead | pipeclose => exact h.start (fun _ => trivial)
  | acquire k hpc hlock => exact h.acquire hpc hlock
  | run k hpc => exact h.outcome hpc (outcome_run hpc (h.held p k hpc) hup)
  | kill => exact h.kill

/-- A writer that gives up while a reader sleeps leaves it asleep beside a full
pipe. -/
theorem not_readersOk_of_abandons (hstep : step s (p, .run) = some s') (hup : Abandons s p)
    (hq : s.sleeping q = some .nread) : s'.lock = none ∧ ¬ ReadersOk s' := by
  cases hpc : s.pc p with
  | idle | waiting k => simp [Abandons, hpc] at hup
  | holding k =>
    unfold Abandons at hup
    rw [hpc] at hup
    split at hup
    · next bytes i heq =>
        obtain ⟨hi, hfull, hgive⟩ := hup
        cases heq
        simp only [step, hpc, run, List.getElem?_eq_getElem hi, if_pos hfull, if_pos hgive,
          Option.some.injEq] at hstep
        subst hstep
        exact ⟨rfl, fun hr => not_empty_of_full hfull (hr q hq).1⟩
    · cases hup

/-- Exactly the runs in which no `pipewrite` gives up on a full pipe beside a
sleeping reader lose no wakeup. -/
theorem no_lost_wakeup_iff (data : Nat → UInt8) (ls : List (P × Act))
    (hrun : exec step (pipealloc P data) ls = some s) :
    AllSteps step Heard (pipealloc P data) ls ↔
      ∀ ms, ms <+: ls → ∀ t, exec step (pipealloc P data) ms = some t → t.lock = none →
        (∀ q, t.sleeping q = some .nread → t.ring.Empty ∧ t.writeopen = true) ∧
        (∀ q, t.sleeping q = some .nwrite → t.ring.Full ∧ t.readopen = true) := by
  constructor
  · rintro hall ms ⟨rest, rfl⟩ t ht hlock
    have hms := ((allSteps_append ht).mp hall).1
    have hinv : Inv t :=
      exec_invariant_of_allSteps Inv (inv_pipealloc data) (fun _ _ _ => inv_step) hms ht
    exact hinv.free hlock
  · intro hsafe
    induction ls using List.reverseRecOn generalizing s with
    | nil => trivial
    | append_singleton ls l ih =>
      obtain ⟨m, hm, hl⟩ := exec_concat_some.mp hrun
      refine (allSteps_append hm).mpr ⟨?_, ?_⟩
      · exact ih hm (fun ms hms => hsafe ms (hms.trans (List.prefix_append ls [l])))
      · have hheard : Heard m l := by
          obtain ⟨p, a⟩ := l
          rintro ⟨⟩ hup q hq
          obtain ⟨hlock, hbad⟩ := not_readersOk_of_abandons hl hup hq
          exact hbad (hsafe _ (List.prefix_refl _) s hrun hlock).1
        simp only [AllSteps, hl, and_true]
        exact hheard

end Steps

/-- A reader sleeps on the empty pipe until a writer has stored a byte. -/
def wokenReader : List (Fin 2 × Act) :=
  [(0, .piperead 1), (0, .acquire), (0, .run), (0, .run),
    (1, .pipewrite [7]), (1, .acquire), (1, .run), (1, .run), (1, .run), (1, .run),
    (0, .acquire), (0, .run)]

theorem no_lost_wakeup_wokenReader :
    AllSteps step Heard (pipealloc (Fin 2) (fun _ => 0)) wokenReader ∧
      ∀ ms, ms <+: wokenReader → ∀ t, exec step (pipealloc (Fin 2) (fun _ => 0)) ms = some t →
        t.lock = none →
          (∀ q, t.sleeping q = some .nread → t.ring.Empty ∧ t.writeopen = true) ∧
          (∀ q, t.sleeping q = some .nwrite → t.ring.Full ∧ t.readopen = true) := by
  have hsome : (exec step (pipealloc (Fin 2) (fun _ => 0)) wokenReader).isSome = true := by
    decide +kernel
  have hheard : AllSteps step Heard (pipealloc (Fin 2) (fun _ => 0)) wokenReader := by
    decide +kernel
  obtain ⟨s, hs⟩ := Option.isSome_iff_exists.mp hsome
  exact ⟨hheard, (no_lost_wakeup_iff (fun _ => 0) wokenReader hs).mp hheard⟩

/-- A reader goes to sleep on the empty pipe; a writer that is killed on its
way fills the pipe and gives up. -/
def killedWriter : List (Fin 2 × Act) :=
  [(0, .piperead 1), (0, .acquire), (0, .run), (0, .run),
    (1, .pipewrite (List.replicate 513 0)), (1, .acquire), (1, .kill)] ++
  List.replicate 513 (1, .run)

theorem killed_writer_strands_reader :
    ∃ s, exec step (pipealloc (Fin 2) (fun _ => 0)) killedWriter = some s ∧
      s.lock = none ∧ s.sleeping 0 = some .nread ∧ s.ring.Full ∧ ¬ s.ring.Empty := by
  decide +kernel

end Xv6.Pipe
