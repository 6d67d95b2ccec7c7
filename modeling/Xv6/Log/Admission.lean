import Xv6.Log.GroupCommit

/-!
Admission control against the size of the on-disk log. `begin_op` reserves
against `LOGSIZE`, but `mkfs` makes the log `LOGSIZE` blocks long with the
header among them, so three full operations do not fit, and since `log_write`
tests the room before it takes the lock, two of them can pass the test for the
same last slot. Both defects are shown on concrete runs, and for each the runs
that stay clear of it are characterised.
-/

namespace Xv6.LogProtocol

open Transition

/-- The log geometry of `mkfs`: `nlog = LOGSIZE` blocks from block 2 on. -/
def nlog : Nat := LOGSIZE
def logstart : Nat := 2

variable {P : Type} [DecidableEq P]

/-- The operation stays within its reservation of `MAXOPBLOCKS` distinct blocks. -/
def WithinBudget (s : State P) (l : P × Act) : Prop :=
  match l.2 with
  | .logWrite b => (insert b (s.pc l.1).mine).card ≤ MAXOPBLOCKS
  | _ => True

instance (s : State P) (l : P × Act) : Decidable (WithinBudget s l) := by
  obtain ⟨p, a⟩ := l
  cases a <;> unfold WithinBudget <;> infer_instance

/-- `log_write` of each of the blocks `first, …, first + k - 1` by `p`. -/
def writes (p : P) (first k : Nat) : List (P × Act) :=
  (List.range k).flatMap fun i => [(p, .logWrite (first + i)), (p, .append (first + i))]

/-- Three operations that log ten different blocks each. -/
def threeFullOps : List (Fin 3 × Act) :=
  [(0, .beginOp), (1, .beginOp), (2, .beginOp)] ++
    writes 0 100 10 ++ writes 1 110 10 ++ writes 2 120 9 ++ [(2, .logWrite 129)]

section Guard

variable [Fintype P]

/-- The exact runs that reach the panic: a `log_write` starts when `LOGSIZE - 1`
distinct blocks have been logged since the last commit. -/
theorem too_big_unreached_iff (ls : List (P × Act)) (s : State P)
    (hrun : exec (step nlog) (init P) ls = some s) :
    s.halt ≠ some .tooBigTransaction ↔
      ∀ before p b after, ls = before ++ (p, .logWrite b) :: after →
        (logged before).card < LOGSIZE - 1 := by
  have hcard {m : State P} {ms : List (P × Act)}
      (hm : exec (step nlog) (init P) ms = some m) : m.lh.length = (logged ms).card := by
    rw [← lh_eq_logged hm, List.toFinset_card_of_nodup (inv_exec hm).nodup]
  constructor
  · rintro hhalt before p b after rfl
    obtain ⟨m, hm, hrest⟩ := exec_append_some.mp hrun
    obtain ⟨m', hm', hafter⟩ := exec_cons_some.mp hrest
    rw [← hcard hm]
    by_contra hfull
    have hstop : m'.halt = some .tooBigTransaction := by
      obtain ⟨-, hstep⟩ := step_cases hm'
      cases hstep with
      | tooBig _ _ mine hpc hroom => rfl
      | outside _ _ mine hpc hout =>
        have := (inv_exec hm).one_le_outstanding (p := p) (by simp [hpc, Pc.InOp])
        omega
      | check _ _ mine hpc hcap hroom =>
        have : nlog = LOGSIZE := rfl
        omega
    -- a stopped kernel takes no further step
    cases after with
    | nil =>
      cases hafter
      exact hhalt hstop
    | cons l ls =>
      obtain ⟨m'', hm'', -⟩ := exec_cons_some.mp hafter
      have := (step_cases hm'').1
      rw [hstop] at this
      cases this
  · intro hroom hhalt
    rcases List.eq_nil_or_concat ls with rfl | ⟨before, l, rfl⟩
    · cases hrun
      simp [init] at hhalt
    · rw [List.concat_eq_append] at hrun hroom
      obtain ⟨m, hm, hlast⟩ := exec_concat_some.mp hrun
      obtain ⟨hnone, hstep⟩ := step_cases hlast
      cases hstep with
      | tooBig p b mine hpc hfull =>
        have hlt := hroom before p b [] rfl
        rw [← hcard hm] at hlt
        have : nlog = LOGSIZE := rfl
        omega
      | append p b mine hpc hnew stop hstop =>
        rcases hstop with rfl | rfl <;> simp at hhalt
      | outside p b mine hpc hout => simp at hhalt
      | endPanic p mine hpc hc => simp at hhalt
      | _ => exact absurd (hnone.symm.trans hhalt) (by simp)

end Guard

/-- Two of three operations test the room before either appends, and the log is
then full to its last block. -/
def overlappingOps : List (Fin 3 × Act) :=
  [(0, .beginOp), (1, .beginOp), (2, .beginOp)] ++
    writes 0 100 10 ++ writes 1 110 9 ++ writes 2 120 8 ++
    [(1, .logWrite 119), (2, .logWrite 128), (1, .append 119), (2, .append 128)]

theorem too_big_unreached_overlapping :
    ∃ s, exec (step nlog) (init (Fin 3)) overlappingOps = some s ∧
      (s.halt ≠ some .tooBigTransaction ↔
        ∀ before p b after, overlappingOps = before ++ (p, .logWrite b) :: after →
          (logged before).card < LOGSIZE - 1) ∧ s.halt = none := by
  obtain ⟨s, hs, hhalt⟩ : ∃ s,
      exec (step nlog) (init (Fin 3)) overlappingOps = some s ∧ s.halt = none := by decide +kernel
  exact ⟨s, hs, too_big_unreached_iff overlappingOps s hs, hhalt⟩

/-- Three operations, each within its reservation and admitted by `begin_op`,
reach the panic on the thirtieth block. -/
theorem three_full_ops_too_big :
    ∃ s, exec (step nlog) (init (Fin 3)) threeFullOps = some s ∧
      AllSteps (step nlog) WithinBudget (init (Fin 3)) threeFullOps ∧
      s.halt = some .tooBigTransaction := by
  have hhalt : (exec (step nlog) (init (Fin 3)) threeFullOps).map State.halt =
      some (some .tooBigTransaction) := by decide
  obtain ⟨s, hs, hs'⟩ := Option.map_eq_some_iff.mp hhalt
  exact ⟨s, hs, by decide, hs'⟩

/-! ### The log region -/

/-- The log block that the next transfer of a process inside `commit` reads or
writes. -/
def logBlock (start n : Nat) : Pc → Option Nat
  | .writeLog tail | .install tail => if tail < n then some (start + tail + 1) else none
  | .writeHead | .eraseHead => some start
  | _ => none

/-- The block a `log_write` has tested the room for but not yet appended. -/
def Pc.pending : Pc → Finset Nat
  | .logging _ b => {b}
  | _ => ∅

section Region

variable [Fintype P]

/-- The blocks of all log_writes between their test and their append. -/
def inFlight (s : State P) : Finset Nat := Finset.univ.biUnion fun p => (s.pc p).pending

/-- The logged blocks, those in flight and this one fit in the log together. -/
def RoomForAll (size : Nat) (s : State P) (l : P × Act) : Prop :=
  match l.2 with
  | .logWrite b => (insert b (s.lh.toFinset ∪ inFlight s)).card ≤ size - 1
  | _ => True

variable {s : State P} {size : Nat}

omit [DecidableEq P] in
theorem mem_inFlight {b : Nat} : b ∈ inFlight s ↔ ∃ p, b ∈ (s.pc p).pending := by
  simp [inFlight]

theorem inFlight_goto {p : P} {pc : Pc} : inFlight (s.goto p pc) ⊆ inFlight s ∪ pc.pending := by
  intro c hc
  obtain ⟨q, hq⟩ := mem_inFlight.mp hc
  rw [Finset.mem_union]
  by_cases hqp : q = p
  · subst hqp
    rw [goto_pc_self] at hq
    exact Or.inr hq
  · rw [goto_pc_of_ne hqp] at hq
    exact Or.inl (mem_inFlight.mpr ⟨q, hq⟩)

omit [DecidableEq P] in
theorem inFlight_wakeup : inFlight s.wakeup = inFlight s := by
  ext c
  simp only [mem_inFlight]
  apply exists_congr
  intro q
  by_cases hq : s.pc q = .sleeping
  · simp [State.wakeup, hq, Pc.pending]
  · simp [State.wakeup, hq]

/-- Everything logged or in flight after a step was so before it, except the
block whose room the step tests. -/
theorem claimed_step {s' : State P} {l : P × Act} (h : step size s l = some s') :
    s'.lh.toFinset ∪ inFlight s' ⊆ s.lh.toFinset ∪ inFlight s ∪
      (match l.2 with | .logWrite b => {b} | _ => ∅) := by
  have hgoto (p : P) (pc : Pc) : s.lh.toFinset ∪ inFlight (s.goto p pc) ⊆
      s.lh.toFinset ∪ inFlight s ∪ pc.pending := by
    rw [Finset.union_assoc]
    exact Finset.union_subset_union_right inFlight_goto
  obtain ⟨-, hstep⟩ := step_cases h
  cases hstep with
  | sleep p hpc => exact hgoto p _
  | admitted p hpc hc hroom => exact hgoto p (.inOp ∅)
  | tooBig p b mine hpc hfull => exact Finset.subset_union_left
  | outside p b mine hpc hout => exact Finset.subset_union_left
  | check p b mine hpc hcap hroom => exact hgoto p _
  | absorb p b mine hpc hmem => exact hgoto p _
  | append p b mine hpc hnew stop hstop =>
    intro c hc
    rw [Finset.mem_union] at hc
    have hb : b ∈ inFlight s := mem_inFlight.mpr ⟨p, by simp [hpc, Pc.pending]⟩
    simp only [Finset.union_empty, Finset.mem_union]
    rcases hc with hc | hc
    · simp only [goto_lh, List.toFinset_append, Finset.mem_union, List.mem_toFinset] at hc
      rcases hc with hc | hc
      · exact Or.inl (by simpa using hc)
      · simp only [List.mem_singleton] at hc
        exact Or.inr (hc ▸ hb)
    · have := inFlight_goto (s := s) (p := p) hc
      simpa [Pc.pending] using Or.inr this
  | endPanic p mine hpc hc => exact Finset.subset_union_left
  | endLast p mine hpc hc hlast => exact hgoto p .commit
  | endOther p mine hpc hc hmore =>
    rw [inFlight_wakeup]
    exact hgoto p .idle
  | commit p pc hnext =>
    have hnone : pc.pending = ∅ := by
      cases hpc : s.pc p <;> simp only [hpc, commitNext, Option.some.injEq, reduceCtorEq] at hnext
        <;> subst hnext <;> (try split_ifs) <;> rfl
    have := hgoto p pc
    rwa [hnone] at this
  | clear p hpc =>
    intro c hc
    have hc' : c ∈ inFlight (s.goto p .eraseHead) := by
      rcases Finset.mem_union.mp hc with hc | hc
      · simp at hc
      · exact hc
    have := inFlight_goto hc'
    simp only [Finset.mem_union] at this ⊢
    exact Or.inl (Or.inr (by simpa [Pc.pending] using this))
  | finish p hpc =>
    rw [finishCommit, inFlight_wakeup]
    exact hgoto p .idle

theorem claimed_le {ls : List (P × Act)} (hrun : exec (step size) (init P) ls = some s)
    (hroom : AllSteps (step size) (RoomForAll size) (init P) ls) :
    (s.lh.toFinset ∪ inFlight s).card ≤ size - 1 := by
  apply exec_invariant_of_allSteps
    (fun s : State P => (s.lh.toFinset ∪ inFlight s).card ≤ size - 1) ?_ ?_ hroom hrun
  · have : inFlight (init P) = ∅ := by
      ext c
      simp [mem_inFlight, init, Pc.pending]
    rw [this]
    simp [init]
  · rintro s ⟨p, a⟩ s' hle hfits h
    have hsub := claimed_step h
    cases a with
    | logWrite b =>
      calc
        (s'.lh.toFinset ∪ inFlight s').card
            ≤ (s.lh.toFinset ∪ inFlight s ∪ {b}).card := Finset.card_le_card hsub
        _ = (insert b (s.lh.toFinset ∪ inFlight s)).card := by
          rw [Finset.union_comm, Finset.insert_eq]
        _ ≤ size - 1 := hfits
    | _ =>
      have hsub' : s'.lh.toFinset ∪ inFlight s' ⊆ s.lh.toFinset ∪ inFlight s := by
        simpa using hsub
      exact (Finset.card_le_card hsub').trans hle

/-- Processes that have all passed their tests can append one after the other,
so claims that exceed the log turn into a header that does. -/
theorem overflow_of_claimed (hsize : size ≤ LOGSIZE) (k : Nat) (s : State P) (hhalt : s.halt = none)
    (hk : s.lh.length + k = size) (hclaim : size ≤ (s.lh.toFinset ∪ inFlight s).card) :
    ∃ ls s', exec (step size) s ls = some s' ∧ size ≤ s'.lh.length := by
  induction k generalizing s with
  | zero => exact ⟨[], s, rfl, by omega⟩
  | succ k ih =>
    obtain ⟨b, hb, hnew⟩ : ∃ b ∈ inFlight s, b ∉ s.lh := by
      by_contra hnone
      push Not at hnone
      have hall : s.lh.toFinset ∪ inFlight s ⊆ s.lh.toFinset := by
        intro c hc
        rcases Finset.mem_union.mp hc with hc | hc
        · exact hc
        · exact List.mem_toFinset.mpr (hnone c hc)
      have := Finset.card_le_card hall
      have := s.lh.toFinset_card_le
      omega
    obtain ⟨p, hp⟩ := mem_inFlight.mp hb
    obtain ⟨mine, hpc⟩ : ∃ mine, s.pc p = .logging mine b := by
      cases hpc : s.pc p <;> simp [hpc, Pc.pending] at hp
      exact ⟨_, by rw [hp]⟩
    let s₁ : State P := { s with lh := s.lh ++ [b] }.goto p (.inOp (insert b mine))
    have hstep : step size s (p, .append b) = some s₁ := by
      have hlt : ¬ s.lh.length ≥ LOGSIZE := by omega
      simp [step, hhalt, hpc, logWriteAppend, hnew, hlt, s₁]
    have hclaim₁ : size ≤ (s₁.lh.toFinset ∪ inFlight s₁).card := by
      refine hclaim.trans (Finset.card_le_card ?_)
      intro c hc
      simp only [Finset.mem_union, List.mem_toFinset] at hc ⊢
      by_cases hcb : c = b
      · exact Or.inl (by simp [s₁, hcb])
      rcases hc with hc | hc
      · exact Or.inl (by simp [s₁, hc])
      · obtain ⟨q, hq⟩ := mem_inFlight.mp hc
        refine Or.inr (mem_inFlight.mpr ⟨q, ?_⟩)
        by_cases hqp : q = p
        · subst hqp
          simp [hpc, Pc.pending] at hq
          exact absurd hq hcb
        · rw [goto_pc_of_ne hqp]
          exact hq
    obtain ⟨ls, s', hls, hlen⟩ := ih s₁ hhalt (by simp [s₁]; omega) hclaim₁
    exact ⟨(p, .append b) :: ls, s', exec_cons_some.mpr ⟨s₁, hstep, hls⟩, hlen⟩

/-- When every `log_write` that tests the room finds it for all the blocks in
flight, the header never outgrows the log and `commit` stays inside it; and as
soon as one of them does not, some continuation outgrows the log. -/
theorem log_region_safe (start size : Nat) (hsize : 1 ≤ size) (ls : List (P × Act))
    (s : State P) (hrun : exec (step size) (init P) ls = some s)
    (hroom : AllSteps (step size) (RoomForAll size) (init P) ls) :
    (s.lh.length ≤ size - 1 ∧
      ∀ p b, logBlock start s.lh.length (s.pc p) = some b → start ≤ b ∧ b < start + size) ∧
    (size ≤ LOGSIZE → ∀ p b s', step size s (p, .logWrite b) = some s' → s'.halt = none →
      ¬ RoomForAll size s (p, .logWrite b) →
      ∃ ms s'', exec (step size) s' ms = some s'' ∧ size - 1 < s''.lh.length) := by
  have hclaimed := claimed_le hrun hroom
  have hlen : s.lh.length ≤ size - 1 := by
    rw [← List.toFinset_card_of_nodup (inv_exec hrun).nodup]
    exact (Finset.card_le_card Finset.subset_union_left).trans hclaimed
  refine ⟨⟨hlen, ?_⟩, ?_⟩
  · intro p b hb
    cases hpc : s.pc p <;> simp [hpc, logBlock] at hb <;> omega
  · intro hcap p b s' h hhalt hfull
    have hs' : s'.lh = s.lh ∧ b ∈ inFlight s' ∧ inFlight s ⊆ inFlight s' := by
      obtain ⟨hnone, hstep⟩ := step_cases h
      cases hstep with
      | tooBig _ _ mine hpc hfull => simp at hhalt
      | outside _ _ mine hpc hout => simp at hhalt
      | check _ _ mine hpc hlt hlt' =>
        refine ⟨rfl, mem_inFlight.mpr ⟨p, by simp [Pc.pending]⟩, ?_⟩
        intro c hc
        obtain ⟨q, hq⟩ := mem_inFlight.mp hc
        have hqp : q ≠ p := by
          rintro rfl
          simp [hpc, Pc.pending] at hq
        exact mem_inFlight.mpr ⟨q, by rwa [goto_pc_of_ne hqp]⟩
    have hclaim : size ≤ (s'.lh.toFinset ∪ inFlight s').card := by
      have hlt : size - 1 < (insert b (s.lh.toFinset ∪ inFlight s)).card := by
        simpa [RoomForAll] using hfull
      have hsub : insert b (s.lh.toFinset ∪ inFlight s) ⊆ s'.lh.toFinset ∪ inFlight s' := by
        rw [hs'.1]
        intro c hc
        rw [Finset.mem_insert, Finset.mem_union] at hc
        rw [Finset.mem_union]
        rcases hc with rfl | hc | hc
        · exact Or.inr hs'.2.1
        · exact Or.inl hc
        · exact Or.inr (hs'.2.2 hc)
      have := Finset.card_le_card hsub
      omega
    obtain ⟨ms, s'', hms, hover⟩ := overflow_of_claimed hcap (size - s'.lh.length) s' hhalt
      (by rw [hs'.1]; omega) hclaim
    exact ⟨ms, s'', hms, by omega⟩

instance (size : Nat) (s : State P) (l : P × Act) : Decidable (RoomForAll size s l) := by
  obtain ⟨p, a⟩ := l
  cases a <;> unfold RoomForAll <;> infer_instance

end Region

theorem log_region_safe_overlapping :
    ∃ s, exec (step nlog) (init (Fin 3)) overlappingOps = some s ∧ s.lh.length ≤ nlog - 1 ∧
      nlog - 1 ≤ s.lh.length := by
  obtain ⟨s, hs, hfull⟩ : ∃ s, exec (step nlog) (init (Fin 3)) overlappingOps = some s ∧
      nlog - 1 ≤ s.lh.length := by decide +kernel
  exact ⟨s, hs, (log_region_safe logstart nlog (by decide) overlappingOps s hs
    (by decide +kernel)).1.1, hfull⟩

/-- Two processes test the room for the last slot, then both append. -/
def racingOps : List (Fin 3 × Act) :=
  [(0, .beginOp), (1, .beginOp), (2, .beginOp)] ++
    writes 0 100 10 ++ writes 1 110 9 ++ writes 2 120 9 ++
    [(1, .logWrite 119), (2, .logWrite 129), (1, .append 119), (2, .append 129)]

theorem racing_ops_overflow :
    ∃ s, exec (step nlog) (init (Fin 3)) racingOps = some s ∧
      AllSteps (step nlog) WithinBudget (init (Fin 3)) racingOps ∧ nlog - 1 < s.lh.length := by
  decide +kernel

end Xv6.LogProtocol
