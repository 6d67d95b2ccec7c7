import Xv6.Proc.Runs

/-!
No wakeup is lost between `exit` and `wait`: a process that sleeps in `wait`
has no zombie child. `exit` wakes the parent before it turns into a zombie, and
it wakes `initproc` when it hands over a child that is one already, all in the
section that also ends with the zombie.
-/

namespace Xv6.Ptable

open Prog Container Transition

/-- Sleepers in `wait` have no zombie child. -/
structure Waiting (initproc : Slot) (t : Table) : Prop where
  chan : ∀ p r, (t p).state = .sleeping → (t p).chan = some (.proc r) → r = p
  awake : ∀ p q, (t p).state = .sleeping → (t p).chan = some (.proc p) → (t q).parent = some p →
    (t q).state ≠ .zombie
  parent_ne : ∀ q, (t q).parent ≠ some q
  init : (t initproc).parent = none

namespace Waiting

variable {initproc p q np : Slot} {t t' : Table}

section

variable (h : Waiting initproc t)
include h

/-- Nobody falls asleep, becomes a zombie or gets another parent. -/
theorem congr
    (hsleep : ∀ q, (t' q).state = .sleeping → (t q).state = .sleeping ∧ (t' q).chan = (t q).chan)
    (hzombie : ∀ q, (t' q).state = .zombie → (t q).state = .zombie)
    (hparent : ∀ q, (t' q).parent = (t q).parent) : Waiting initproc t' := by
  refine ⟨?_, ?_, ?_, ?_⟩
  · intro p r hp hchan
    obtain ⟨hold, hsame⟩ := hsleep p hp
    exact h.chan p r hold (hsame ▸ hchan)
  · intro p q hp hchan hq hz
    obtain ⟨hold, hsame⟩ := hsleep p hp
    rw [hparent] at hq
    exact h.awake p q hold (hsame ▸ hchan) hq (hzombie q hz)
  · intro q
    rw [hparent]
    exact h.parent_ne q
  · rw [hparent]
    exact h.init

theorem woken (ht : Roused t t') : Waiting initproc t' :=
  h.congr (fun q hq => ⟨(ht.state q).sleeping hq, ht.chan q⟩)
    (fun q => ((ht.state q).state_iff (by simp) (by simp)).mp) ht.parent

/-- One slot changes to a state in which it neither sleeps nor is a zombie. -/
theorem set_proc {x : Proc} (hsleep : x.state ≠ .sleeping) (hzombie : x.state ≠ .zombie)
    (hparent : x.parent = (t p).parent) : Waiting initproc (set t p x) := by
  refine h.congr ?_ ?_ ?_
  · exact forall_set (C := fun q (x : Proc) => x.state = .sleeping →
      (t q).state = .sleeping ∧ x.chan = (t q).chan) (absurd · hsleep) fun _ _ hq => ⟨hq, rfl⟩
  · exact forall_set (C := fun q (x : Proc) => x.state = .zombie → (t q).state = .zombie)
      (absurd · hzombie) fun _ _ => id
  · exact forall_set (C := fun q (x : Proc) => x.parent = (t q).parent) hparent fun _ _ => rfl

/-- A process falls asleep: in `wait` only after it found no zombie child. -/
theorem sleep {chan : Chan} (hchan : ∀ r, chan = .proc r → r = p ∧ zombieChild t p = none) :
    Waiting initproc (set t p ((t p).sleep chan)) := by
  have hparent : ∀ q, (set t p ((t p).sleep chan) q).parent = (t q).parent :=
    forall_set (C := fun q (x : Proc) => x.parent = (t q).parent) rfl fun _ _ => rfl
  refine ⟨?_, ?_, ?_, ?_⟩
  · intro q r hq hqr
    by_cases hqp : q = p
    · subst hqp
      rw [set_self] at hqr
      exact (hchan r (Option.some.inj hqr)).1
    · rw [set_of_ne _ _ hqp] at hq hqr
      exact h.chan q r hq hqr
  · intro q r hq hqq hr hz
    rw [hparent] at hr
    have hz' : (t r).state = .zombie := by
      by_cases hrp : r = p
      · subst hrp
        rw [set_self] at hz
        cases hz
      · rwa [set_of_ne _ _ hrp] at hz
    by_cases hqp : q = p
    · subst hqp
      rw [set_self] at hqq
      exact zombieChild_none (hchan q (Option.some.inj hqq)).2 hr hz'
    · rw [set_of_ne _ _ hqp] at hq hqq
      exact h.awake q r hq hqq hr hz'
  · intro q
    rw [hparent]
    exact h.parent_ne q
  · rw [hparent]
    exact h.init

/-- A process other than `initproc` and `np` itself becomes the parent. -/
theorem forkParent (hnp : (t np).state = .embryo) (hinit : np ≠ initproc) (hne : p ≠ np) :
    Waiting initproc (set t np { t np with parent := some p }) := by
  have hstate : ∀ q, (set t np { t np with parent := some p } q).state = (t q).state ∧
      (set t np { t np with parent := some p } q).chan = (t q).chan :=
    forall_set (C := fun q (x : Proc) => x.state = (t q).state ∧ x.chan = (t q).chan) ⟨rfl, rfl⟩
      fun _ _ => ⟨rfl, rfl⟩
  refine ⟨?_, ?_, ?_, ?_⟩
  · intro q r hq hchan
    rw [(hstate q).1] at hq
    rw [(hstate q).2] at hchan
    exact h.chan q r hq hchan
  · intro q r hq hchan hr hz
    rw [(hstate q).1] at hq
    rw [(hstate q).2] at hchan
    rw [(hstate r).1] at hz
    by_cases hrn : r = np
    · subst hrn
      rw [hnp] at hz
      cases hz
    · rw [set_of_ne _ _ hrn] at hr
      exact h.awake q r hq hchan hr hz
  · intro q
    by_cases hq : q = np
    · subst hq
      rw [set_self]
      simpa using hne
    · rw [set_of_ne _ _ hq]
      exact h.parent_ne q
  · rw [set_of_ne _ _ (Ne.symm hinit)]
    exact h.init

theorem reap (hq : q ≠ initproc) : Waiting initproc (set t q (t q).reap) := by
  refine ⟨?_, ?_, ?_, ?_⟩
  · intro p r hp hchan
    by_cases hpq : p = q
    · subst hpq
      rw [set_self] at hp
      cases hp
    · rw [set_of_ne _ _ hpq] at hp hchan
      exact h.chan p r hp hchan
  · intro p r hp hchan hr
    by_cases hrq : r = q
    · subst hrq
      rw [set_self] at hr
      cases hr
    · by_cases hpq : p = q
      · subst hpq
        rw [set_self] at hp
        cases hp
      · rw [set_of_ne _ _ hpq] at hp hchan
        rw [set_of_ne _ _ hrq] at hr ⊢
        exact h.awake p r hp hchan hr
  · intro r
    by_cases hrq : r = q
    · subst hrq
      rw [set_self]
      exact fun hnone => by cases hnone
    · rw [set_of_ne _ _ hrq]
      exact h.parent_ne r
  · rw [set_of_ne _ _ (Ne.symm hq)]
    exact h.init

/-- The section of `exit` wakes whoever gets a zombie child by it. -/
theorem exit (ht : Exited initproc p t t') : Waiting initproc t' := by
  have hsleep {q : Slot} (hq : (t' q).state = .sleeping) : (t q).state = .sleeping := by
    by_cases hqp : q = p
    · subst hqp
      rw [ht.self] at hq
      cases hq
    · exact (ht.state q hqp).sleeping hq
  have hzombie {q : Slot} (hqp : q ≠ p) (hq : (t' q).state = .zombie) : (t q).state = .zombie :=
    ((ht.state q hqp).state_iff (by simp) (by simp)).mp hq
  refine ⟨?_, ?_, ?_, ?_⟩
  · intro q r hq hchan
    rw [ht.chan] at hchan
    exact h.chan q r (hsleep hq) hchan
  · intro r q hr hchan hq hz
    by_cases hqp : q = p
    · subst hqp
      -- the new zombie is still a child of the process it woke
      rw [ht.parent, if_neg (h.parent_ne q)] at hq
      exact ht.wakesParent r r hq hr hchan
    · rw [ht.parent] at hq
      split_ifs at hq with hchild
      · cases hq
        exact ht.wakesInit q hchild (hzombie hqp hz) _ hr hchan
      · rw [ht.chan] at hchan
        exact h.awake r q (hsleep hr) hchan hq (hzombie hqp hz)
  · intro q
    rw [ht.parent]
    split_ifs with hchild
    · intro heq
      cases heq
      rw [h.init] at hchild
      cases hchild
    · exact h.parent_ne q
  · rw [ht.parent, h.init]
    simp

end

end Waiting

section Steps

variable {C : Type} {s s' : Machine C}

theorem waiting_userinit (C : Type) : Waiting (userinit C).initproc (userinit C).proc := by
  have hstate (q : Slot) : ((userinit C).proc q).state = if q = 0 then .runnable else .unused := rfl
  have hawake (q : Slot) : ((userinit C).proc q).state ≠ .sleeping := by
    rw [hstate]
    split_ifs <;> simp
  refine ⟨fun p _ hp => absurd hp (hawake p), fun p _ hp => absurd hp (hawake p), ?_, rfl⟩
  intro q hq
  cases hq

variable [DecidableEq C]

theorem Waiting.waitLoop {c : C} {p : Slot} (hi : Inv s) (h : Waiting s.initproc s.proc) :
    Waiting (waitLoop s c p).initproc (waitLoop s c p).proc := by
  rcases waitLoop_cases s c p with ⟨q, hq, heq⟩ | heq | ⟨hnone, heq⟩
  · rw [heq]
    refine h.reap ?_
    rintro rfl
    have hinit := hi.family.init
    rw [(zombieChild_some hq).2] at hinit
    exact hinit
  · rw [heq]
    exact h
  · rw [heq]
    refine h.sleep ?_
    rintro r heq'
    cases heq'
    exact ⟨rfl, hnone⟩

theorem waiting_step {l : C × Act} (hi : Inv s) (h : Waiting s.initproc s.proc)
    (hstep : step s l = some s') : Waiting s'.initproc s'.proc := by
  have htidy {c : C} {p : Slot} (hp : (s.cpu c).proc = some p) :
      Waiting s.initproc (set s.proc p (s.proc p).tidy) := by
    have hrun : ((s.proc p).tidy).state = .running := hi.running hp
    exact h.set_proc (by rw [hrun]; simp) (by rw [hrun]; simp) rfl
  cases step_cases hstep with
  | look | enter | scanEnd | scanNext | resumed | create | destroy | clear | destroyed
  | forkFull | list | destroyNext | destroyEnd => exact h
  | dispatch | forkFail | yield =>
    exact h.set_proc (by simp [Proc.setState]) (by simp [Proc.setState]) rfl
  | wakeup c chan => exact h.woken (wakeup1_roused _ _)
  | slept c p hp => exact htidy hp
  | waited c p hp =>
    exact Waiting.waitLoop (s := s.setProc p (s.proc p).tidy) (hi.tidy p) (htidy hp)
  | forkParent c p np hp hcall =>
    have hrun := hi.running (current_eq_some.mp hp).1
    have hnp := hi.family.forks p np (by rw [hcall]; rfl)
    refine h.forkParent hnp ?_ ?_
    · rintro rfl
      have hinit := hi.family.init
      rw [hnp] at hinit
      exact hinit
    · rintro rfl
      rw [hnp] at hrun
      cases hrun
  | fork c p np => exact h.set_proc (by simp [Proc.alloc]) (by simp [Proc.alloc]) rfl
  | forkDone c p np => exact h.set_proc (by simp [Proc.start]) (by simp [Proc.start]) rfl
  | exit c p => exact h.exit (exitTable_exited s.initproc p s.proc)
  | wait c p => exact h.waitLoop hi
  | kill | destroyKill => exact h.woken (kill_roused _ _)
  | sleep c p a => exact h.sleep (fun r heq => by cases heq)
  | join | leave => exact h.woken (addProcessToContainer_roused _ _ _)

/-- No process sleeps in `wait` while it has a zombie child. -/
theorem no_zombie_child_of_waiting {ls : List (C × Act)} {p q : Slot}
    (hrun : exec step (userinit C) ls = some s) (hsleep : (s.proc p).state = .sleeping)
    (hchan : (s.proc p).chan = some (.proc p)) (hchild : (s.proc q).parent = some p) :
    (s.proc q).state ≠ .zombie := by
  have hboth : Inv s ∧ Waiting s.initproc s.proc :=
    exec_invariant (fun s => Inv s ∧ Waiting s.initproc s.proc)
      ⟨inv_userinit C, waiting_userinit C⟩
      (fun _ _ _ h hstep => ⟨inv_step h.1 hstep, waiting_step h.1 h.2 hstep⟩) hrun
  exact hboth.2.awake p q hsleep hchan hchild

end Steps

theorem no_zombie_child_of_waiting_init :
    ∃ s, exec step (userinit Unit) (bootRun ++ forkRun ++ [((), .locked .wait)]) = some s ∧
      (s.proc 0).state = .sleeping ∧ (s.proc 1).parent = some 0 ∧
      (s.proc 1).state ≠ .zombie := by
  obtain ⟨s, hrun, hsleep, hchan, hchild⟩ : ∃ s,
      exec step (userinit Unit) (bootRun ++ forkRun ++ [((), .locked .wait)]) = some s ∧
      (s.proc 0).state = .sleeping ∧ (s.proc 0).chan = some (.proc 0) ∧
      (s.proc 1).parent = some 0 := by decide +kernel
  exact ⟨s, hrun, hsleep, hchild, no_zombie_child_of_waiting hrun hsleep hchan hchild⟩

end Xv6.Ptable
