import Xv6.Log.Protocol

/-!
The invariant of the group-commit protocol. Counting does the work: the field
`outstanding` is the number of processes in an operation, and exactly one
process is inside `commit` while `committing` is set.
-/

namespace Xv6.LogProtocol

open Transition

variable {P : Type}

section Wakeup

variable (s : State P)

@[simp] theorem wakeup_lh : s.wakeup.lh = s.lh := rfl
@[simp] theorem wakeup_outstanding : s.wakeup.outstanding = s.outstanding := rfl
@[simp] theorem wakeup_committing : s.wakeup.committing = s.committing := rfl
@[simp] theorem wakeup_halt : s.wakeup.halt = s.halt := rfl

/-- Waking the sleepers changes nothing the protocol state counts. -/
theorem wakeup_pc (q : P) :
    ((s.wakeup.pc q).InOp ↔ (s.pc q).InOp) ∧
      ((s.wakeup.pc q).InCommit ↔ (s.pc q).InCommit) ∧
      (s.wakeup.pc q).mine = (s.pc q).mine ∧
      (∀ pc, pc ≠ .woken → s.wakeup.pc q = pc → s.pc q = pc) := by
  by_cases hq : s.pc q = .sleeping
  · have hw : s.wakeup.pc q = .woken := by simp [State.wakeup, hq]
    rw [hw, hq]
    refine ⟨by simp [Pc.InOp], by simp [Pc.InCommit], rfl, ?_⟩
    intro pc hne heq
    exact absurd heq.symm hne
  · have hw : s.wakeup.pc q = s.pc q := by simp [State.wakeup, hq]
    rw [hw]
    exact ⟨Iff.rfl, Iff.rfl, rfl, fun _ _ h => h⟩

end Wakeup

section Invariant

variable [Fintype P]

structure Inv (s : State P) : Prop where
  outstanding_eq : s.outstanding = count Pc.InOp s.pc
  committing_quiet : s.committing = true → s.outstanding = 0
  committer : count Pc.InCommit s.pc = if s.committing then 1 else 0
  not_outside : s.halt ≠ some .logWriteOutsideTrans
  not_committing : s.halt ≠ some .logCommitting
  nodup : s.lh.Nodup
  mine_logged : ∀ p, ∀ b ∈ (s.pc p).mine, b ∈ s.lh
  quiet_empty : s.committing = false → s.outstanding = 0 → s.lh = []
  cleared : ∀ p, s.pc p = .eraseHead ∨ s.pc p = .finish → s.lh = []

theorem inv_init : Inv (init P) := by
  have hop : count Pc.InOp (init P).pc = 0 :=
    Finset.card_eq_zero.mpr (Finset.filter_eq_empty_iff.mpr (by simp [init, Pc.InOp]))
  have hcommit : count Pc.InCommit (init P).pc = 0 :=
    Finset.card_eq_zero.mpr (Finset.filter_eq_empty_iff.mpr (by simp [init, Pc.InCommit]))
  refine ⟨by rw [hop]; rfl, by simp [init], by rw [hcommit]; rfl, by simp [init],
    by simp [init], by simp [init], ?_, by simp [init], by simp [init]⟩
  intro p b hb
  simp [init, Pc.mine] at hb

theorem mine_eq_empty_of_not_inOp {pc : Pc} (hp : ¬ pc.InOp) : pc.mine = ∅ := by
  cases pc <;> simp_all [Pc.InOp, Pc.mine]

variable {s : State P} (hi : Inv s) {p : P}

include hi

theorem Inv.one_le_outstanding (hp : (s.pc p).InOp) : 1 ≤ s.outstanding := by
  have hpos : 0 < count Pc.InOp s.pc := count_pos_of hp
  have := hi.outstanding_eq
  omega

theorem Inv.not_committing_of_inOp (hp : (s.pc p).InOp) : s.committing = false := by
  have hpos := hi.one_le_outstanding hp
  cases hc : s.committing with
  | false => rfl
  | true =>
    have := hi.committing_quiet hc
    omega

theorem Inv.committing_of_inCommit (hp : (s.pc p).InCommit) : s.committing = true := by
  have hpos : 0 < count Pc.InCommit s.pc := count_pos_of hp
  have hcount := hi.committer
  cases hc : s.committing with
  | true => rfl
  | false =>
    rw [hc] at hcount
    simp at hcount
    omega

theorem Inv.not_inOp_of_committing (hc : s.committing = true) : ¬ (s.pc p).InOp := by
  apply not_of_count_eq_zero
  have := hi.outstanding_eq
  have := hi.committing_quiet hc
  omega

theorem Inv.wakeup : Inv s.wakeup := by
  have hop : count Pc.InOp s.wakeup.pc = count Pc.InOp s.pc :=
    count_congr (fun q => (wakeup_pc s q).1)
  have hcommit : count Pc.InCommit s.wakeup.pc = count Pc.InCommit s.pc :=
    count_congr (fun q => (wakeup_pc s q).2.1)
  refine ⟨?_, hi.committing_quiet, ?_, hi.not_outside, hi.not_committing, hi.nodup, ?_,
    hi.quiet_empty, ?_⟩
  · rw [hop]
    exact hi.outstanding_eq
  · rw [hcommit]
    exact hi.committer
  · intro q b hb
    rw [(wakeup_pc s q).2.2.1] at hb
    exact hi.mine_logged q b hb
  · intro q hq
    have hback := (wakeup_pc s q).2.2.2
    apply hi.cleared q
    rcases hq with hq | hq
    · exact Or.inl (hback _ (by simp) hq)
    · exact Or.inr (hback _ (by simp) hq)

end Invariant

variable [DecidableEq P]

section Goto

variable (s : State P) (p : P) (pc : Pc)

@[simp] theorem goto_lh : (s.goto p pc).lh = s.lh := rfl
@[simp] theorem goto_outstanding : (s.goto p pc).outstanding = s.outstanding := rfl
@[simp] theorem goto_committing : (s.goto p pc).committing = s.committing := rfl
@[simp] theorem goto_halt : (s.goto p pc).halt = s.halt := rfl
@[simp] theorem goto_pc_self : (s.goto p pc).pc p = pc := Function.update_self ..

variable {s p pc}

theorem goto_pc_of_ne {q : P} (h : q ≠ p) : (s.goto p pc).pc q = s.pc q :=
  Function.update_of_ne h ..

theorem forall_goto {C : Pc → Prop} (hold : ∀ q, C (s.pc q)) (hnew : C pc) (q : P) :
    C ((s.goto p pc).pc q) := by
  by_cases hq : q = p
  · subst hq
    rwa [goto_pc_self]
  · rw [goto_pc_of_ne hq]
    exact hold q

variable [Fintype P]

/-- A process moves, and the two counters follow. -/
theorem Inv.goto_counted {k : Int} {c : Bool} (hi : Inv s)
    (hop : k = count Pc.InOp (s.goto p pc).pc)
    (hcommit : count Pc.InCommit (s.goto p pc).pc = if c then 1 else 0)
    (hquiet : c = true → k = 0) (hempty : c = false → k = 0 → s.lh = [])
    (hmine : ∀ b ∈ pc.mine, b ∈ s.lh) (hclear : pc = .eraseHead ∨ pc = .finish → s.lh = []) :
    Inv ({ s with outstanding := k, committing := c }.goto p pc) :=
  ⟨hop, hquiet, hcommit, hi.not_outside, hi.not_committing, hi.nodup,
    forall_goto (C := fun pc => ∀ b ∈ pc.mine, b ∈ s.lh) hi.mine_logged hmine, hempty,
    forall_goto (C := fun pc => pc = .eraseHead ∨ pc = .finish → s.lh = []) hi.cleared hclear⟩

/-- A process moves between positions that count the same. -/
theorem Inv.goto_neutral (hi : Inv s) (hop : (s.pc p).InOp ↔ pc.InOp)
    (hcommit : (s.pc p).InCommit ↔ pc.InCommit) (hmine : ∀ b ∈ pc.mine, b ∈ s.lh)
    (hclear : pc = .eraseHead ∨ pc = .finish → s.lh = []) : Inv (s.goto p pc) := by
  refine hi.goto_counted ?_ ?_ hi.committing_quiet hi.quiet_empty hmine hclear
  · rw [show count Pc.InOp (s.goto p pc).pc = _ from count_update_same hop]
    exact hi.outstanding_eq
  · exact (count_update_same hcommit).trans hi.committer

end Goto

variable [Fintype P]

variable {size : Nat} {s' : State P} {ls : List (P × Act)}

theorem inv_step {s : State P} {l : P × Act} (hi : Inv s) (h : step size s l = some s') :
    Inv s' := by
  obtain ⟨hhalt, hstep⟩ := step_cases h
  cases hstep with
  | sleep p hpc =>
    apply hi.goto_neutral
    · rcases hpc with hpc | hpc <;> simp [hpc, Pc.InOp]
    · rcases hpc with hpc | hpc <;> simp [hpc, Pc.InCommit]
    · simp [Pc.mine]
    · simp
  | admitted p hpc hc hroom =>
    have hop : ¬ (s.pc p).InOp := by rcases hpc with hpc | hpc <;> simp [hpc, Pc.InOp]
    have hcm : ¬ (s.pc p).InCommit := by
      rcases hpc with hpc | hpc <;> simp [hpc, Pc.InCommit]
    have hcountOp : count Pc.InOp (s.goto p (.inOp ∅)).pc = count Pc.InOp s.pc + 1 :=
      count_update_enter hop trivial
    have hout := hi.outstanding_eq
    refine hi.goto_counted (by omega) ((count_update_same (iff_of_false hcm id)).trans hi.committer)
      ?_ ?_ (by simp [Pc.mine]) (by simp)
    · exact fun hcon => absurd (hc.symm.trans hcon) (by simp)
    · omega
  | tooBig p b mine hpc hfull =>
    exact { hi with not_outside := by simp, not_committing := by simp }
  | outside p b mine hpc hout =>
    have := hi.one_le_outstanding (p := p) (by simp [hpc, Pc.InOp])
    omega
  | check p b mine hpc hcap hroom =>
    apply hi.goto_neutral
    · simp [hpc, Pc.InOp]
    · simp [hpc, Pc.InCommit]
    · intro c hcm
      exact hi.mine_logged p c (by simpa [hpc, Pc.mine] using hcm)
    · simp
  | absorb p b mine hpc hmem =>
    apply hi.goto_neutral
    · simp [hpc, Pc.InOp]
    · simp [hpc, Pc.InCommit]
    · intro c hcm
      rcases Finset.mem_insert.mp hcm with rfl | hold
      · exact hmem
      · exact hi.mine_logged p c (by simpa [hpc, Pc.mine] using hold)
    · simp
  | append p b mine hpc hnew stop hstop =>
    have hop : (s.pc p).InOp := by simp [hpc, Pc.InOp]
    have hnc := hi.not_committing_of_inOp hop
    have hpos := hi.one_le_outstanding hop
    -- first the longer header, then the move of `p`
    have hgrown : Inv { s with lh := s.lh ++ [b], halt := stop } := by
      refine ⟨hi.outstanding_eq, hi.committing_quiet, hi.committer, ?_, ?_, ?_, ?_, ?_, ?_⟩
      · rcases hstop with rfl | rfl <;> simp
      · rcases hstop with rfl | rfl <;> simp
      · rw [List.nodup_append]
        refine ⟨hi.nodup, by simp, ?_⟩
        rintro x hx y hy rfl
        simp only [List.mem_singleton] at hy
        subst hy
        exact hnew hx
      · intro q c hcm
        exact List.mem_append_left _ (hi.mine_logged q c hcm)
      · intro _ hzero
        exact absurd hzero (by simp only; omega)
      · intro q hq
        have hqc : (s.pc q).InCommit := by
          rcases hq with hq | hq
          · exact hq ▸ trivial
          · exact hq ▸ trivial
        exact absurd (hnc.symm.trans (hi.committing_of_inCommit hqc)) (by simp)
    apply hgrown.goto_neutral
    · simp [hpc, Pc.InOp]
    · simp [hpc, Pc.InCommit]
    · intro c hcm
      rcases Finset.mem_insert.mp hcm with rfl | hold
      · simp
      · have hold' := hi.mine_logged p c (by simpa [hpc, Pc.mine] using hold)
        simp [hold']
    · simp
  | endPanic p mine hpc hc =>
    have := hi.not_committing_of_inOp (p := p) (by simp [hpc, Pc.InOp])
    rw [hc] at this
    cases this
  | endLast p mine hpc hc hlast =>
    have hcountOp : count Pc.InOp (s.goto p .commit).pc + 1 = count Pc.InOp s.pc :=
      count_update_leave (by simp [hpc, Pc.InOp]) (by simp [Pc.InOp])
    have hcountCommit :
        count Pc.InCommit (s.goto p .commit).pc = count Pc.InCommit s.pc + 1 :=
      count_update_enter (by simp [hpc, Pc.InCommit]) trivial
    have hout := hi.outstanding_eq
    have hcom := hi.committer
    rw [hc] at hcom
    simp only [Bool.false_eq_true, if_false] at hcom
    exact hi.goto_counted (by omega) (by simpa using hcountCommit.trans (by omega)) (by omega)
      (by simp) (by simp [Pc.mine]) (by simp)
  | endOther p mine hpc hc hmore =>
    have hcountOp : count Pc.InOp (s.goto p .idle).pc + 1 = count Pc.InOp s.pc :=
      count_update_leave (by simp [hpc, Pc.InOp]) (by simp [Pc.InOp])
    have hout := hi.outstanding_eq
    refine Inv.wakeup (hi.goto_counted (by omega) ((count_update_same
      (by simp [hpc, Pc.InCommit])).trans hi.committer) ?_ (by omega) (by simp [Pc.mine]) (by simp))
    exact fun hcon => absurd (hc.symm.trans hcon) (by simp)
  | commit p pc hnext =>
    have hpos : (s.pc p).InCommit ∧ ¬ (s.pc p).InOp ∧ pc.InCommit ∧ ¬ pc.InOp ∧
        pc.mine = ∅ ∧ (pc = .eraseHead ∨ pc = .finish → s.lh = []) := by
      cases hpc : s.pc p <;> simp only [hpc, commitNext, Option.some.injEq, reduceCtorEq] at hnext
      · subst hnext
        by_cases hn : 0 < s.lh.length
        · simp [hn, Pc.InCommit, Pc.InOp, Pc.mine]
        · have hempty : s.lh = [] := List.length_eq_zero_iff.mp (by omega)
          simp [Pc.InCommit, Pc.InOp, Pc.mine, hempty]
      · subst hnext
        split_ifs <;> simp [Pc.InCommit, Pc.InOp, Pc.mine]
      · subst hnext
        simp [Pc.InCommit, Pc.InOp, Pc.mine]
      · subst hnext
        split_ifs <;> simp [Pc.InCommit, Pc.InOp, Pc.mine]
      · subst hnext
        have hempty : s.lh = [] := hi.cleared p (Or.inl hpc)
        simp [Pc.InCommit, Pc.InOp, Pc.mine, hempty]
    obtain ⟨hcm, hop, hcm', hop', hmine, hclear⟩ := hpos
    apply hi.goto_neutral
    · simp [hop, hop']
    · simp [hcm, hcm']
    · simp [hmine]
    · exact hclear
  | clear p hpc =>
    have hc := hi.committing_of_inCommit (p := p) (by simp [hpc, Pc.InCommit])
    -- nobody is in an operation, so no logged block is forgotten
    have hempty : Inv { s with lh := [] } := by
      refine ⟨hi.outstanding_eq, hi.committing_quiet, hi.committer, hi.not_outside,
        hi.not_committing, by simp, ?_, by simp, by simp⟩
      intro q b hb
      rw [mine_eq_empty_of_not_inOp (hi.not_inOp_of_committing hc)] at hb
      simp at hb
    apply hempty.goto_neutral
    · simp [hpc, Pc.InOp]
    · simp [hpc, Pc.InCommit]
    · simp [Pc.mine]
    · simp
  | finish p hpc =>
    have hc := hi.committing_of_inCommit (p := p) (by simp [hpc, Pc.InCommit])
    have hlh := hi.cleared p (Or.inr hpc)
    have hcountCommit :
        count Pc.InCommit (s.goto p .idle).pc + 1 = count Pc.InCommit s.pc :=
      count_update_leave (by simp [hpc, Pc.InCommit]) (by simp [Pc.InCommit])
    have hcom := hi.committer
    rw [hc] at hcom
    simp only [if_true] at hcom
    refine Inv.wakeup (hi.goto_counted ?_ ?_ (by simp) (fun _ _ => hlh) (by simp [Pc.mine])
      (fun _ => hlh))
    · rw [show count Pc.InOp (s.goto p .idle).pc = _ from
        count_update_same (by simp [hpc, Pc.InOp])]
      exact hi.outstanding_eq
    · simpa using (by omega : count Pc.InCommit (s.goto p .idle).pc = 0)

theorem inv_exec {s : State P} (hrun : exec (step size) (init P) ls = some s) : Inv s :=
  exec_invariant Inv inv_init (fun _ _ _ hi h => inv_step hi h) hrun

/-! ### What a commit contains -/

/-- The blocks appended since the header was last cleared, read off the run. -/
def logged (ls : List (P × Act)) : Finset Nat :=
  ls.foldl (fun acc l => match l.2 with
    | .append b => insert b acc
    | .clear => ∅
    | _ => acc) ∅

/-- A step that sets `committing`. -/
def StartsCommit (s s' : State P) : Prop := s.committing = false ∧ s'.committing = true

omit [DecidableEq P] [Fintype P] in
theorem logged_concat (ls : List (P × Act)) (p : P) (a : Act) :
    logged (ls ++ [(p, a)]) = match a with
      | .append b => insert b (logged ls)
      | .clear => ∅
      | _ => logged ls := by
  simp [logged, List.foldl_append]

omit [Fintype P] in
theorem lh_eq_logged {s : State P} (hrun : exec (step size) (init P) ls = some s) :
    s.lh.toFinset = logged ls := by
  apply exec_history (fun ls (s : State P) => s.lh.toFinset = logged ls) ?_ ?_ hrun
  · simp [init, logged]
  · intro tr s l s' hlh h
    obtain ⟨-, hstep⟩ := step_cases h
    cases hstep with
    | absorb p b mine hpc hmem =>
      rw [logged_concat, ← hlh]
      simp [hmem]
    | append p b mine hpc hnew stop hstop =>
      rw [logged_concat, ← hlh]
      ext c
      simp
    | clear p hpc =>
      rw [logged_concat]
      simp
    | _ =>
      rw [logged_concat]
      exact hlh

omit [Fintype P] in
/-- Only its own `end_op` takes a process out of an operation. -/
theorem inOp_of_no_endOp {s : State P} {p : P} (hp : (s.pc p).InOp)
    (hrun : exec (step size) s ls = some s') (hno : (p, Act.endOp) ∉ ls) : (s'.pc p).InOp := by
  induction ls generalizing s with
  | nil =>
    cases hrun
    exact hp
  | cons l ls ih =>
    obtain ⟨m, hm, hrest⟩ := exec_cons_some.mp hrun
    simp only [List.mem_cons, not_or] at hno
    apply ih ?_ hrest hno.2
    obtain ⟨-, hstep⟩ := step_cases hm
    have hstay (q : P) (pc : Pc) (hq : (s.pc q).InOp → pc.InOp) :
        ((s.goto q pc).pc p).InOp := by
      by_cases hpq : p = q
      · subst hpq
        rw [goto_pc_self]
        exact hq hp
      · rwa [goto_pc_of_ne hpq]
    cases hstep with
    | sleep q hpc => exact hstay q _ (by rcases hpc with hpc | hpc <;> simp [hpc, Pc.InOp])
    | admitted q hpc hc hroom => exact hstay q _ (fun _ => trivial)
    | tooBig q b mine hpc hfull => exact hp
    | outside q b mine hpc hout => exact hp
    | check q b mine hpc hcap hroom => exact hstay q _ (fun _ => trivial)
    | absorb q b mine hpc hmem => exact hstay q _ (fun _ => trivial)
    | append q b mine hpc hnew stop hstop => exact hstay q _ (fun _ => trivial)
    | endPanic q mine hpc hc => exact hp
    | endLast q mine hpc hc hlast =>
      have hpq : p ≠ q := fun heq => hno.1 (by rw [heq])
      rwa [goto_pc_of_ne hpq]
    | endOther q mine hpc hc hmore =>
      have hpq : p ≠ q := fun heq => hno.1 (by rw [heq])
      rw [(wakeup_pc _ p).1, goto_pc_of_ne hpq]
      exact hp
    | commit q pc hnext =>
      apply hstay q
      intro hq
      cases hpc : s.pc q <;> simp [hpc, Pc.InOp, commitNext] at hq hnext
    | clear q hpc => exact hstay q _ (by simp [hpc, Pc.InOp])
    | finish q hpc =>
      rw [finishCommit, (wakeup_pc _ p).1]
      exact hstay q _ (by simp [hpc, Pc.InOp])

/-- Until a commit starts, nothing leaves the header. -/
theorem mem_lh_until_commit {s : State P} {b : Nat} (hi : Inv s) (hc : s.committing = false)
    (hb : b ∈ s.lh) (hrun : exec (step size) s ls = some s')
    (hno : AllSteps (step size)
      (fun s l => ∀ s', step size s l = some s' → ¬ StartsCommit s s') s ls) :
    Inv s' ∧ s'.committing = false ∧ b ∈ s'.lh := by
  apply exec_invariant_of_allSteps (fun s : State P => Inv s ∧ s.committing = false ∧ b ∈ s.lh)
    ⟨hi, hc, hb⟩ ?_ hno hrun
  rintro s l s' ⟨hi, hc, hb⟩ hquiet h
  refine ⟨inv_step hi h, ?_, ?_⟩
  · cases hc' : s'.committing with
    | false => rfl
    | true => exact absurd ⟨hc, hc'⟩ (hquiet s' h)
  · obtain ⟨-, hstep⟩ := step_cases h
    cases hstep with
    | append p c mine hpc hnew stop hstop => exact List.mem_append_left _ hb
    | clear p hpc =>
      have := hi.committing_of_inCommit (p := p) (by simp [hpc, Pc.InCommit])
      exact absurd (hc.symm.trans this) (by simp)
    | finish p hpc => exact hb
    | _ => exact hb

/-- **Group commit.** In every state of every run: `outstanding` counts the
operations in progress; while `committing` is set there is none and exactly one
process is inside `commit`; no `begin_op` completes and no `log_write` happens
then; two of the panics are unreachable; the header has no duplicates and holds
exactly what was logged since it was cleared. When a commit starts, every
operation has ended, and a block logged since the previous commit started is in
the header; when it ends the header is empty, so that the block is in no later
commit unless it is logged again. -/
theorem group_commit (size : Nat) (ls : List (P × Act)) (s : State P)
    (hrun : exec (step size) (init P) ls = some s) :
    s.outstanding = count Pc.InOp s.pc ∧
    (s.committing = true → s.outstanding = 0 ∧ ∃! p, (s.pc p).InCommit) ∧
    (s.committing = true → ∀ p s', step size s (p, .beginOp) = some s' → ¬ (s'.pc p).InOp) ∧
    (s.committing = true → ∀ p b, step size s (p, .logWrite b) = none ∧
      step size s (p, .append b) = none) ∧
    s.halt ≠ some .logCommitting ∧ s.halt ≠ some .logWriteOutsideTrans ∧
    s.lh.Nodup ∧ s.lh.toFinset = logged ls ∧
    (∀ l s', step size s l = some s' → StartsCommit s s' →
      (∀ p, ¬ (s'.pc p).InOp) ∧
      ∀ before p b since s₁, ls = before ++ (p, .append b) :: since →
        exec (step size) (init P) (before ++ [(p, .append b)]) = some s₁ →
        AllSteps (step size)
          (fun s l => ∀ s', step size s l = some s' → ¬ StartsCommit s s') s₁ since →
        b ∈ s'.lh ∧ (p, Act.endOp) ∈ since ++ [l]) ∧
    (∀ l s', step size s l = some s' → s.committing = true → s'.committing = false →
      s'.lh = []) := by
  have hi := inv_exec hrun
  refine ⟨hi.outstanding_eq, ?_, ?_, ?_, hi.not_committing, hi.not_outside, hi.nodup,
    lh_eq_logged hrun, ?_, ?_⟩
  · intro hc
    have hone : count Pc.InCommit s.pc = 1 := by rw [hi.committer, hc]; rfl
    obtain ⟨p, hp⟩ := Finset.card_eq_one.mp hone
    refine ⟨hi.committing_quiet hc, p, ?_, ?_⟩
    · have : p ∈ Finset.univ.filter (fun q => (s.pc q).InCommit) := by rw [hp]; simp
      simpa using this
    · intro q hq
      have : q ∈ Finset.univ.filter (fun q => (s.pc q).InCommit) := by simpa using hq
      rw [hp] at this
      simpa using this
  · intro hc p s' h
    obtain ⟨-, hstep⟩ := step_cases h
    cases hstep with
    | sleep _ hpc => simp [Pc.InOp]
    | admitted _ hpc hc' hroom => exact absurd (hc.symm.trans hc') (by simp)
  · intro hc p b
    have hnot := hi.not_inOp_of_committing (p := p) hc
    refine ⟨?_, ?_⟩
    · by_contra hne
      obtain ⟨s', h⟩ := Option.ne_none_iff_exists'.mp hne
      obtain ⟨-, hstep⟩ := step_cases h
      cases hstep <;> simp_all [Pc.InOp]
    · by_contra hne
      obtain ⟨s', h⟩ := Option.ne_none_iff_exists'.mp hne
      obtain ⟨-, hstep⟩ := step_cases h
      cases hstep <;> simp_all [Pc.InOp]
  · intro l s' h hstart
    have hi' := inv_step hi h
    have hdone (p : P) : ¬ (s'.pc p).InOp := hi'.not_inOp_of_committing hstart.2
    refine ⟨hdone, ?_⟩
    rintro before p b since s₁ rfl hbefore hquiet
    have hsplit : before ++ (p, Act.append b) :: since =
        (before ++ [(p, Act.append b)]) ++ since := by simp
    rw [hsplit] at hrun
    obtain ⟨m, hm, hsince⟩ := exec_append_some.mp hrun
    cases hbefore.symm.trans hm
    obtain ⟨s₀, -, hlast⟩ := exec_concat_some.mp hm
    have hi₁ := inv_exec hm
    -- right after the append, `p` is in its operation and `b` is in the header
    have hafter : (s₁.pc p).InOp ∧ b ∈ s₁.lh := by
      obtain ⟨-, hstep⟩ := step_cases hlast
      cases hstep with
      | absorb _ _ mine hpc hmem => exact ⟨by simp [Pc.InOp], hmem⟩
      | append _ _ mine hpc hnew stop hstop => exact ⟨by simp [Pc.InOp], by simp⟩
    obtain ⟨-, -, hb⟩ := mem_lh_until_commit hi₁ (hi₁.not_committing_of_inOp hafter.1)
      hafter.2 hsince hquiet
    refine ⟨?_, ?_⟩
    · obtain ⟨-, hstep⟩ := step_cases h
      cases hstep with
      | append _ c mine hpc hnew stop hstop => exact List.mem_append_left _ hb
      | clear q hpc =>
        have := hi.committing_of_inCommit (p := q) (by simp [hpc, Pc.InCommit])
        exact absurd (hstart.1.symm.trans this) (by simp)
      | finish q hpc => exact hb
      | _ => exact hb
    · by_contra hno
      exact hdone p (inOp_of_no_endOp hafter.1
        (exec_concat_some.mpr ⟨s, hsince, h⟩) hno)
  · intro l s' h hc hc'
    obtain ⟨-, hstep⟩ := step_cases h
    cases hstep with
    | finish p hpc => exact hi.cleared p (Or.inr hpc)
    | clear => rfl
    | endLast => cases hc'
    | _ => exact absurd (hc.symm.trans hc') (by simp)

/-- Two overlapping operations; the second `end_op` commits both blocks. -/
def twoOps : List (Fin 2 × Act) :=
  [(0, .beginOp), (1, .beginOp), (0, .logWrite 100), (1, .logWrite 101), (0, .append 100),
    (0, .endOp), (1, .append 101), (1, .endOp)]

theorem group_commit_two_ops :
    ∃ s, exec (step 30) (init (Fin 2)) twoOps = some s ∧ s.committing = true ∧
      s.outstanding = 0 ∧ s.lh.toFinset = logged twoOps ∧ logged twoOps = {100, 101} := by
  have hcommit : (exec (step 30) (init (Fin 2)) twoOps).map State.committing = some true := by
    decide
  obtain ⟨s, hs, hc⟩ := Option.map_eq_some_iff.mp hcommit
  obtain ⟨-, hquiet, -, -, -, -, -, hlogged, -⟩ := group_commit 30 twoOps s hs
  exact ⟨s, hs, hc, (hquiet hc).1, hlogged, by decide⟩

end Xv6.LogProtocol
