import Xv6.Proc.LockPoints

/-!
Which process is on which CPU and at which point: a process is on one CPU at most,
the scheduler finds the processes it may switch to behind a call of `sched`, and
`fork` has the slot it fills for itself.
-/

namespace Xv6.Ptable.Locks

open Prog Container Container.Memory Transition

section Control

variable {C : Type} {s s' : Machine C} {c d : C} {p q : Slot} {next : Pc}

def Machine.state (s : Machine C) (q : Slot) : ProcState := (s.data.proc q).state

def Machine.Off (s : Machine C) (q : Slot) : Prop := ∀ c, s.cur c ≠ some q

/-- A process that the scheduler may switch to gets `ptable.lock` from it. -/
def Ready (s : Machine C) (q : Slot) : Prop :=
  (s.pc q).held = some .ptable ∧ ∀ l, s.entry q l = false

/-- The slot is on no CPU, and once it has a context it will start in `forkret`. -/
def Vacant (s : Machine C) (np : Slot) (b : Bool) : Prop :=
  s.Off np ∧ (b = true → s.pc np = .forkret ∧ ∀ l, s.entry np l = false)

/-- The slot that `fork` is filling belongs to nobody else. -/
def Filled (s : Machine C) (np : Slot) (b : Bool) : Prop := s.state np = .embryo ∧ Vacant s np b

structure Control (s : Machine C) : Prop where
  busy : ∀ c p, s.cur c = some p → ∃ con i, s.sched c = .run con i
  once : ∀ c d p, s.cur c = some p → s.cur d = some p → c = d
  wf : ∀ p, (s.pc p).Wf
  running : ∀ c p, s.cur c = some p → s.state p = .running ∨ (s.pc p).Leaving
  ready : ∀ p, s.Off p → s.state p = .runnable ∨ s.state p = .sleeping → Ready s p
  child : ∀ p np b, (s.pc p).child = some (np, b) → Filled s np b
  parent : ∀ p p' np b b', (s.pc p).child = some (np, b) → (s.pc p').child = some (np, b') → p = p'

theorem Control.state_of_not_leaving (h : Control s) (hp : s.cur c = some p)
    (hpc : ¬ (s.pc p).Leaving) : s.state p = .running :=
  (h.running c p hp).resolve_right hpc

variable {np : Slot}

theorem Control.child_ne (h : Control s) (hp : s.cur c = some p) {r : Slot} {b : Bool}
    (hr : (s.pc r).child = some (np, b)) : np ≠ p := by
  rintro rfl
  exact (h.child r np b hr).2.1 c hp

/-- What a move of the process `p` needs, with the CPUs as they are. -/
structure Control.Moved (s s' : Machine C) (p : Slot) : Prop where
  running : ∀ d q, s.cur d = some q → s'.state q = .running ∨ (s'.pc q).Leaving
  ready : ∀ q, s.Off q → s'.state q = .runnable ∨ s'.state q = .sleeping → Ready s q
  child : ∀ r np b, (s'.pc r).child = some (np, b) → s'.state np = .embryo ∧ Vacant s np b
  parent : ∀ r r' np b b', (s'.pc r).child = some (np, b) → (s'.pc r').child = some (np, b') →
    r = r'

theorem Control.moved (h : Control s) (hp : s.cur c = some p) (hcur : s'.cur = s.cur)
    (hsched : s'.sched = s.sched) (hsame : ∀ q, q ≠ p → s'.pc q = s.pc q ∧ s'.entry q = s.entry q)
    (hwf : (s'.pc p).Wf) (hm : Control.Moved s s' p) : Control s' := by
  refine ⟨?_, ?_, ?_, ?_, ?_, ?_, hm.parent⟩
  · rw [hcur, hsched]
    exact h.busy
  · rw [hcur]
    exact h.once
  · intro q
    by_cases hq : q = p
    · rw [hq]
      exact hwf
    · rw [(hsame q hq).1]
      exact h.wf q
  · rw [hcur]
    exact hm.running
  · intro q hq hst
    unfold Machine.Off at hq
    rw [hcur] at hq
    have hne : q ≠ p := by
      rintro rfl
      exact hq c hp
    unfold Ready
    rw [(hsame q hne).1, (hsame q hne).2]
    exact hm.ready q hq hst
  · intro r np b hr
    obtain ⟨hembryo, hoff, hset⟩ := hm.child r np b hr
    have hne : np ≠ p := by
      rintro rfl
      exact hoff c hp
    unfold Filled Vacant Machine.Off
    rw [hcur, (hsame np hne).1, (hsame np hne).2]
    exact ⟨hembryo, hoff, hset⟩

/-- The process on CPU `c` moves and no state changes. -/
theorem Control.move (h : Control s) (hp : s.cur c = some p) (hcur : s'.cur = s.cur)
    (hsched : s'.sched = s.sched) (hstate : s'.state = s.state)
    (hsame : ∀ q, q ≠ p → s'.pc q = s.pc q ∧ s'.entry q = s.entry q)
    (hwf : (s'.pc p).Wf) (hrun : s.state p = .running ∨ (s'.pc p).Leaving)
    (hchild : (s'.pc p).child = (s.pc p).child ∨ (s'.pc p).child = none) : Control s' := by
  have hback {r np : Slot} {b : Bool} (hr : (s'.pc r).child = some (np, b)) :
      (s.pc r).child = some (np, b) := by
    by_cases hrp : r = p
    · subst hrp
      rcases hchild with hchild | hchild
      · rwa [← hchild]
      · rw [hchild] at hr
        cases hr
    · rwa [← (hsame r hrp).1]
  refine h.moved hp hcur hsched hsame hwf ⟨?_, ?_, ?_, ?_⟩
  · intro d q hd
    rw [hstate]
    by_cases hq : q = p
    · rw [hq]
      exact hrun
    · rw [(hsame q hq).1]
      exact h.running d q hd
  · rw [hstate]
    exact h.ready
  · intro r np b hr
    rw [hstate]
    exact h.child r np b (hback hr)
  · intro r r' np b b' hr hr'
    exact h.parent r r' np b b' (hback hr) (hback hr')

/-- The new context of a slot that is being filled. -/
theorem Control.context (h : Control s) (hp : s.cur c = some p) (hpc : s.pc p = .allocContext np)
    (hcur : s'.cur = s.cur) (hsched : s'.sched = s.sched) (hstate : s'.state = s.state)
    (hself : s'.pc p = .forkCopy np) (hnew : s'.pc np = .forkret)
    (hentry : ∀ l, s'.entry np l = false)
    (hsame : ∀ q, q ≠ p → q ≠ np → s'.pc q = s.pc q ∧ s'.entry q = s.entry q) : Control s' := by
  have hchild : (s.pc p).child = some (np, false) := by
    rw [hpc]
    rfl
  obtain ⟨hembryo, hoff, -⟩ := h.child p np false hchild
  have hback {r np' : Slot} {b : Bool} (hr : (s'.pc r).child = some (np', b)) :
      r = p ∧ np' = np ∨ r ≠ p ∧ (s.pc r).child = some (np', b) := by
    by_cases hrp : r = p
    · rw [hrp, hself] at hr
      cases hr
      exact Or.inl ⟨hrp, rfl⟩
    · by_cases hrn : r = np
      · rw [hrn, hnew] at hr
        cases hr
      · rw [(hsame r hrp hrn).1] at hr
        exact Or.inr ⟨hrp, hr⟩
  have hother {r np' : Slot} {b : Bool} (hrp : r ≠ p) (hr : (s.pc r).child = some (np', b)) :
      np' ≠ np := by
    rintro rfl
    exact hrp (h.parent r p np' b false hr hchild)
  refine ⟨?_, ?_, ?_, ?_, ?_, ?_, ?_⟩
  · rw [hcur, hsched]
    exact h.busy
  · rw [hcur]
    exact h.once
  · intro q
    by_cases hqp : q = p
    · rw [hqp, hself]
      trivial
    · by_cases hq : q = np
      · rw [hq, hnew]
        trivial
      · rw [(hsame q hqp hq).1]
        exact h.wf q
  · intro d q hd
    rw [hcur] at hd
    rw [hstate]
    by_cases hqp : q = p
    · subst hqp
      left
      apply h.state_of_not_leaving hp
      rw [hpc]
      exact id
    · have hq : q ≠ np := by
        rintro rfl
        exact hoff d hd
      rw [(hsame q hqp hq).1]
      exact h.running d q hd
  · intro q hq hst
    unfold Machine.Off at hq
    rw [hcur] at hq
    rw [hstate] at hst
    have hqp : q ≠ p := by
      rintro rfl
      exact hq c hp
    have hne : q ≠ np := by
      rintro rfl
      rw [hembryo] at hst
      simp at hst
    unfold Ready
    rw [(hsame q hqp hne).1, (hsame q hqp hne).2]
    exact h.ready q hq hst
  · intro r np' b hr
    unfold Filled Vacant Machine.Off
    rw [hstate, hcur]
    rcases hback hr with ⟨-, rfl⟩ | ⟨hrp, hr⟩
    · exact ⟨hembryo, hoff, fun _ => ⟨hnew, hentry⟩⟩
    · obtain ⟨hpc', hentry'⟩ := hsame np' (h.child_ne hp hr) (hother hrp hr)
      rw [hpc', hentry']
      exact h.child r np' b hr
  · intro r r' np' b b' hr hr'
    rcases hback hr with ⟨rfl, rfl⟩ | ⟨hrp, hr⟩
    · rcases hback hr' with ⟨rfl, -⟩ | ⟨hrp', hr'⟩
      · rfl
      · exact absurd rfl (hother hrp' hr')
    · rcases hback hr' with ⟨rfl, rfl⟩ | ⟨hrp', hr'⟩
      · exact absurd rfl (hother hrp hr)
      · exact h.parent r r' np' b b' hr hr'

/-- No slot that is being filled changes its state. -/
theorem Control.moved_of_rises (h : Control s) (hp : s.cur c = some p)
    (hsame : ∀ q, q ≠ p → s'.pc q = s.pc q)
    (hchild : (s'.pc p).child = (s.pc p).child)
    (hrun : s'.state p = .running ∨ (s'.pc p).Leaving)
    (hon : ∀ d q, s.cur d = some q → q ≠ p → s'.state q = s.state q)
    (hready : ∀ q, q ≠ p → s'.state q = .runnable ∨ s'.state q = .sleeping →
      s.state q = .runnable ∨ s.state q = .sleeping)
    (hembryo : ∀ q, q ≠ p → s.state q = .embryo → s'.state q = .embryo) :
    Control.Moved s s' p := by
  have hback (r : Slot) : (s'.pc r).child = (s.pc r).child := by
    by_cases hr : r = p
    · rw [hr]
      exact hchild
    · rw [hsame r hr]
  refine ⟨?_, ?_, ?_, ?_⟩
  · intro d q hd
    by_cases hq : q = p
    · rw [hq]
      exact hrun
    · rw [hsame q hq, hon d q hd hq]
      exact h.running d q hd
  · intro q hq hst
    have hne : q ≠ p := by
      rintro rfl
      exact hq c hp
    exact h.ready q hq (hready q hne hst)
  · intro r np b hr
    rw [hback] at hr
    have hf := h.child r np b hr
    exact ⟨hembryo np (h.child_ne hp hr) hf.1, hf.2⟩
  · intro r r' np b b' hr hr'
    rw [hback] at hr hr'
    exact h.parent r r' np b b' hr hr'

theorem state_eq_of_rises (hq : Rises s.data.proc s'.data.proc q) (hst : s.state q ≠ .sleeping) :
    s'.state q = s.state q :=
  hq.resolve_right fun hrise => hst hrise.1

theorem ready_of_rises (hq : Rises s.data.proc s'.data.proc q)
    (hst : s'.state q = .runnable ∨ s'.state q = .sleeping) :
    s.state q = .runnable ∨ s.state q = .sleeping := by
  rcases hq with hq | ⟨hq, -⟩
  · unfold Machine.state at hst ⊢
    rwa [hq] at hst
  · exact Or.inr hq

/-- One slot changes, which is on no CPU and was not being filled. -/
theorem Control.moved_of_slot (h : Control s) (hrun : s.state p = .running) (hoff : s.Off np)
    (hsame : ∀ q, q ≠ p → s'.pc q = s.pc q) (hstate : ∀ q, q ≠ np → s'.state q = s.state q)
    (hready : s'.state np = .runnable ∨ s'.state np = .sleeping → Ready s np)
    (hchild : ∀ r np' b, (s'.pc r).child = some (np', b) → s'.state np' = .embryo ∧ Vacant s np' b)
    (hparent : ∀ r r' np' b b', (s'.pc r).child = some (np', b) →
      (s'.pc r').child = some (np', b') → r = r') : Control.Moved s s' p := by
  refine ⟨?_, ?_, hchild, hparent⟩
  · intro d q hd
    have hne : q ≠ np := by
      rintro rfl
      exact hoff d hd
    rw [hstate q hne]
    by_cases hq : q = p
    · rw [hq]
      exact Or.inl hrun
    · rw [hsame q hq]
      exact h.running d q hd
  · intro q hq hst
    by_cases hne : q = np
    · subst hne
      exact hready hst
    · rw [hstate q hne] at hst
      exact h.ready q hq hst

/-- `fork` is done with the slot it was filling. -/
theorem Control.moved_of_filled (h : Control s) {b : Bool} (hrun : s.state p = .running)
    (hpc : (s.pc p).child = some (np, b)) (hnone : (s'.pc p).child = none)
    (hsame : ∀ q, q ≠ p → s'.pc q = s.pc q) (hstate : ∀ q, q ≠ np → s'.state q = s.state q)
    (hready : s'.state np = .runnable ∨ s'.state np = .sleeping → Ready s np) :
    Control.Moved s s' p := by
  have hown {r np' : Slot} {b' : Bool} (hr : (s'.pc r).child = some (np', b')) :
      r ≠ p ∧ (s.pc r).child = some (np', b') := by
    have hrp : r ≠ p := by
      rintro rfl
      rw [hnone] at hr
      cases hr
    rw [hsame r hrp] at hr
    exact ⟨hrp, hr⟩
  refine h.moved_of_slot hrun (h.child p np b hpc).2.1 hsame hstate hready ?_ ?_
  · intro r np' b' hr
    obtain ⟨hrp, hr⟩ := hown hr
    have hne : np' ≠ np := by
      rintro rfl
      exact hrp (h.parent r p np' b' b hr hpc)
    rw [hstate np' hne]
    exact h.child r np' b' hr
  · intro r r' np' b' b'' hr hr'
    exact h.parent r r' np' b' b'' (hown hr).2 (hown hr').2

/-- A process that holds `ptable.lock` finds every process that is on a CPU
running, so the slots whose state it changes are on none. -/
theorem Control.access (h : Control s) (hp : s.cur c = some p)
    (hlocked : (s.pc p).held = some .ptable → ∀ d q, s.cur d = some q → s.state q = .running)
    (ha : Accesses p (s.pc p) next s.data.proc s'.data.proc) (hcur : s'.cur = s.cur)
    (hsched : s'.sched = s.sched) (hentry : s'.entry = s.entry) (hnext : s'.pc p = next)
    (hsame : ∀ q, q ≠ p → s'.pc q = s.pc q) : Control s' := by
  refine h.moved hp hcur hsched (fun q hq => ⟨hsame q hq, by rw [hentry]⟩)
    (hnext ▸ ha.wf (h.wf p)) ?_
  have hrun := h.state_of_not_leaving hp ha.before
  subst hnext
  cases ha.change with
  | quiet hchild hq =>
    have hstate : s'.state = s.state := funext hq
    refine h.moved_of_rises hp hsame hchild (Or.inl ?_) ?_ ?_ ?_
    · rw [hstate]
      exact hrun
    · intro d q _ _
      rw [hstate]
    · intro q _ hst
      rwa [hstate] at hst
    · intro q _ hst
      rwa [hstate]
  | wakes hheld hchild hq =>
    refine h.moved_of_rises hp hsame hchild (Or.inl ?_) ?_ ?_ ?_
    · rw [state_eq_of_rises (hq p) (by rw [hrun]; simp)]
      exact hrun
    · intro d q hd _
      exact state_eq_of_rises (hq q) (by rw [hlocked hheld d q hd]; simp)
    · intro q _ hst
      exact ready_of_rises (hq q) hst
    · intro q _ hst
      rw [state_eq_of_rises (hq q) (by rw [hst]; simp)]
      exact hst
  | leaves hheld hchild hleave hq =>
    refine h.moved_of_rises hp hsame hchild (Or.inr hleave) ?_ ?_ ?_
    · intro d q hd hne
      exact state_eq_of_rises (hq q hne) (by rw [hlocked hheld d q hd]; simp)
    · intro q hne hst
      exact ready_of_rises (hq q hne) hst
    · intro q hne hst
      rw [state_eq_of_rises (hq q hne) (by rw [hst]; simp)]
      exact hst
  | reaps np hheld hchild hnp hnp' hq =>
    change s.state np = _ at hnp
    change s'.state np = _ at hnp'
    have hne (q : Slot) (hst : s.state q ≠ .zombie) : s'.state q = s.state q := by
      apply hq
      rintro rfl
      exact hst hnp
    refine h.moved_of_rises hp hsame hchild (Or.inl ?_) ?_ ?_ ?_
    · rw [hne p (by rw [hrun]; simp)]
      exact hrun
    · intro d q hd _
      exact hne q (by rw [hlocked hheld d q hd]; simp)
    · intro q _ hst
      by_cases hqn : q = np
      · rw [hqn, hnp'] at hst
        simp at hst
      · rwa [show s'.state q = s.state q from hq q hqn] at hst
    · intro q _ hst
      rw [hne q (by rw [hst]; simp)]
      exact hst
  | allocates np hheld hchild hnp hnp' hq =>
    change s.state np = _ at hnp
    change s'.state np = _ at hnp'
    have hoffnp : s.Off np := by
      intro d hd
      have := hlocked hheld d np hd
      rw [hnp] at this
      cases this
    have hback {r np' : Slot} {b : Bool} (hr : (s'.pc r).child = some (np', b)) :
        r = p ∧ np' = np ∧ b = false ∨ np' ≠ np ∧ (s.pc r).child = some (np', b) ∧ r ≠ p := by
      by_cases hrp : r = p
      · rw [hrp, hchild] at hr
        cases hr
        exact Or.inl ⟨hrp, rfl, rfl⟩
      · rw [hsame r hrp] at hr
        refine Or.inr ⟨?_, hr, hrp⟩
        rintro rfl
        have := (h.child r np' b hr).1
        rw [hnp] at this
        cases this
    refine h.moved_of_slot hrun hoffnp hsame hq ?_ ?_ ?_
    · rw [hnp']
      simp
    · intro r np' b hr
      rcases hback hr with ⟨-, rfl, rfl⟩ | ⟨hne, hr, -⟩
      · exact ⟨hnp', hoffnp, by simp⟩
      · rw [show s'.state np' = s.state np' from hq np' hne]
        exact h.child r np' b hr
    · intro r r' np' b b' hr hr'
      rcases hback hr with ⟨rfl, rfl, -⟩ | ⟨hne, hr, -⟩
      · rcases hback hr' with ⟨rfl, -, -⟩ | ⟨hne, -, -⟩
        · rfl
        · exact absurd rfl hne
      · rcases hback hr' with ⟨-, hnp, -⟩ | ⟨-, hr', -⟩
        · exact absurd hnp hne
        · exact h.parent r r' np' b b' hr hr'
  | frees np b hpc hchild hnp' hq =>
    change s'.state np = _ at hnp'
    refine h.moved_of_filled hrun hpc hchild hsame hq ?_
    rw [hnp']
    simp
  | starts np hheld hpc hchild hnp' hq =>
    refine h.moved_of_filled hrun hpc hchild hsame hq fun _ => ?_
    obtain ⟨hforkret, hentry⟩ := (h.child p np true hpc).2.2 rfl
    refine ⟨?_, hentry⟩
    rw [hforkret]
    rfl

/-- The scheduler of CPU `c` moves; states change by a `wakeup` at most. -/
theorem Control.idle (h : Control s) (hc : s.cur c = none) (hcur : s'.cur = s.cur)
    (hsched : ∀ d, d ≠ c → s'.sched d = s.sched d) (hpc : s'.pc = s.pc)
    (hentry : s'.entry = s.entry) (hon : ∀ d q, s.cur d = some q → s'.state q = s.state q)
    (hrise : ∀ q, Rises s.data.proc s'.data.proc q) : Control s' := by
  refine ⟨?_, ?_, ?_, ?_, ?_, ?_, ?_⟩
  · intro d q hd
    rw [hcur] at hd
    have hne : d ≠ c := by
      rintro rfl
      rw [hc] at hd
      cases hd
    rw [hsched d hne]
    exact h.busy d q hd
  · rw [hcur]
    exact h.once
  · rw [hpc]
    exact h.wf
  · intro d q hd
    rw [hcur] at hd
    rw [hpc, hon d q hd]
    exact h.running d q hd
  · intro q hq hst
    unfold Machine.Off at hq
    rw [hcur] at hq
    unfold Ready
    rw [hpc, hentry]
    exact h.ready q hq (ready_of_rises (hrise q) hst)
  · intro r np b hr
    rw [hpc] at hr
    have hf := h.child r np b hr
    have hst : s'.state np = s.state np := state_eq_of_rises (hrise np) (by rw [hf.1]; simp)
    unfold Filled Vacant Machine.Off
    rw [hst, hcur, hpc, hentry]
    exact hf
  · rw [hpc]
    exact h.parent

/-- The process calls `sched`. -/
theorem Control.leave (h : Control s) (hp : s.cur c = some p) (hl : Leaves (s.pc p) next)
    (hentry : ∀ l, s.entry p l = false) (hcur : ∀ d, d ≠ c → s'.cur d = s.cur d)
    (hnone : s'.cur c = none) (hsched : ∀ d, d ≠ c → s'.sched d = s.sched d)
    (hstate : s'.state = s.state) (hnext : s'.pc p = next)
    (hsame : ∀ q, q ≠ p → s'.pc q = s.pc q) (hent : s'.entry = s.entry) : Control s' := by
  have hbefore {d : C} {q : Slot} (hd : s'.cur d = some q) : d ≠ c ∧ s.cur d = some q := by
    have hne : d ≠ c := by
      rintro rfl
      rw [hnone] at hd
      cases hd
    exact ⟨hne, hcur d hne ▸ hd⟩
  have hoff {q : Slot} (hq : s.Off q) : s'.Off q := by
    intro d hd
    exact hq d (hbefore hd).2
  have hback (r : Slot) : (s'.pc r).child = (s.pc r).child := by
    by_cases hr : r = p
    · rw [hr, hnext]
      exact hl.child
    · rw [hsame r hr]
  refine ⟨?_, ?_, ?_, ?_, ?_, ?_, ?_⟩
  · intro d q hd
    obtain ⟨hne, hd⟩ := hbefore hd
    rw [hsched d hne]
    exact h.busy d q hd
  · intro d e q hd he
    exact h.once d e q (hbefore hd).2 (hbefore he).2
  · intro q
    by_cases hq : q = p
    · rw [hq, hnext]
      exact hl.wf (h.wf p)
    · rw [hsame q hq]
      exact h.wf q
  · intro d q hd
    obtain ⟨hne, hd⟩ := hbefore hd
    have hq : q ≠ p := by
      rintro rfl
      exact hne (h.once d c q hd hp)
    rw [hstate, hsame q hq]
    exact h.running d q hd
  · intro q hq hst
    unfold Ready
    rw [hent]
    by_cases hqp : q = p
    · rw [hqp, hnext]
      exact ⟨hl.after, hentry⟩
    · rw [hsame q hqp]
      rw [hstate] at hst
      refine h.ready q ?_ hst
      intro d hd
      by_cases hdc : d = c
      · rw [hdc, hp] at hd
        exact hqp (Option.some.inj hd).symm
      · exact hq d ((hcur d hdc).trans hd)
  · intro r np b hr
    rw [hback] at hr
    have hf := h.child r np b hr
    have hne := h.child_ne hp hr
    unfold Filled Vacant
    rw [hstate, hent, hsame np hne]
    exact ⟨hf.1, hoff hf.2.1, hf.2.2⟩
  · intro r r' np b b' hr hr'
    rw [hback] at hr hr'
    exact h.parent r r' np b b' hr hr'

/-- The scheduler of CPU `c` switches to a runnable process. -/
theorem Control.dispatch (h : Control s) (hoff : s.Off q) (hrun : s.state q = .runnable)
    (hcur : ∀ d, d ≠ c → s'.cur d = s.cur d) (hself : s'.cur c = some q)
    (hsched : ∀ d, d ≠ c → s'.sched d = s.sched d) (hbusy : ∃ con i, s'.sched c = .run con i)
    (hstate : s'.state q = .running) (hsame : ∀ r, r ≠ q → s'.state r = s.state r)
    (hc : s.cur c = none) (hpc : s'.pc = s.pc) (hent : s'.entry = s.entry) : Control s' := by
  have hcase {d : C} {r : Slot} (hd : s'.cur d = some r) :
      d = c ∧ r = q ∨ d ≠ c ∧ r ≠ q ∧ s.cur d = some r := by
    by_cases hdc : d = c
    · rw [hdc, hself] at hd
      exact Or.inl ⟨hdc, (Option.some.inj hd).symm⟩
    · rw [hcur d hdc] at hd
      refine Or.inr ⟨hdc, ?_, hd⟩
      rintro rfl
      exact hoff d hd
  have hoff' {r : Slot} (hr : s.Off r) (hne : r ≠ q) : s'.Off r := by
    intro d hd
    rcases hcase hd with ⟨-, hrq⟩ | ⟨-, -, hd⟩
    · exact hne hrq
    · exact hr d hd
  refine ⟨?_, ?_, ?_, ?_, ?_, ?_, ?_⟩
  · intro d r hd
    rcases hcase hd with ⟨rfl, -⟩ | ⟨hne, -, hd⟩
    · exact hbusy
    · rw [hsched d hne]
      exact h.busy d r hd
  · intro d e r hd he
    rcases hcase hd with ⟨rfl, rfl⟩ | ⟨-, hrq, hd⟩
    · rcases hcase he with ⟨rfl, -⟩ | ⟨-, hrq, -⟩
      · rfl
      · exact absurd rfl hrq
    · rcases hcase he with ⟨-, hr⟩ | ⟨-, -, he⟩
      · exact absurd hr hrq
      · exact h.once d e r hd he
  · rw [hpc]
    exact h.wf
  · intro d r hd
    rcases hcase hd with ⟨-, rfl⟩ | ⟨-, hrq, hd⟩
    · exact Or.inl hstate
    · rw [hsame r hrq, hpc]
      exact h.running d r hd
  · intro r hr hst
    have hrq : r ≠ q := by
      rintro rfl
      exact hr c hself
    unfold Ready
    rw [hpc, hent]
    rw [hsame r hrq] at hst
    refine h.ready r ?_ hst
    intro d hd
    by_cases hdc : d = c
    · rw [hdc, hc] at hd
      cases hd
    · exact hr d ((hcur d hdc).trans hd)
  · intro r np b hr
    rw [hpc] at hr
    have hf := h.child r np b hr
    have hne : np ≠ q := by
      rintro rfl
      have := hf.1
      rw [hrun] at this
      cases this
    unfold Filled Vacant
    rw [hsame np hne, hpc, hent]
    exact ⟨hf.1, hoff' hf.2.1 hne, hf.2.2⟩
  · rw [hpc]
    exact h.parent

end Control

end Xv6.Ptable.Locks
