import Xv6.Proc.Runs

/-!
The scheduler finds a process only through the container it is in, and only if
that container is waiting. No call looks at both tables: `join_container` takes
any integer, and `destroy_container` takes container 0 as well as any other,
the caller's own included. If processes join only containers that are waiting,
and a container is taken away only when nobody is left in it, every runnable
process can be found.
-/

namespace Xv6.Ptable

open Prog Container Transition

/-- A process that is or may become runnable. -/
def ProcState.Coming (st : ProcState) : Prop := st = .embryo ∨ st.Alive

instance : DecidablePred ProcState.Coming := fun _ => inferInstanceAs (Decidable (_ ∨ _))

/-- Every process is in a container that is waiting. -/
structure Housed (t : Table) (con : Tables) : Prop where
  zero : con.state 0 = .cwaiting
  member : ∀ p, (t p).state.Coming →
    ∃ id : Id, (t p).containerID = id.val ∧ con.state id = .cwaiting

namespace Housed

variable {t t' : Table} {con : Tables} {p : Slot}

section

variable (h : Housed t con)
include h

/-- Processes stay in their container or move to container 0. -/
theorem congr_table (hmember : ∀ p, (t' p).state.Coming → (t' p).containerID = 0 ∨
      (t p).state.Coming ∧ (t' p).containerID = (t p).containerID) : Housed t' con := by
  refine ⟨h.zero, ?_⟩
  intro p hp
  rcases hmember p hp with hzero | ⟨hold, hcid⟩
  · exact ⟨0, by simpa using hzero, h.zero⟩
  · rw [hcid]
    exact h.member p hold

theorem set_proc {x : Proc} (hx : x.state.Coming → x.containerID = 0 ∨
      (t p).state.Coming ∧ x.containerID = (t p).containerID) : Housed (set t p x) con := by
  refine h.congr_table ?_
  exact forall_set (C := fun q (x : Proc) => x.state.Coming → x.containerID = 0 ∨
    (t q).state.Coming ∧ x.containerID = (t q).containerID) hx fun _ _ hlive => Or.inr ⟨hlive, rfl⟩

theorem woken (hcid : ∀ q, (t' q).containerID = (t q).containerID ∨ (t' q).containerID = 0)
    (hstate : ∀ q, Rises t t' q) : Housed t' con := by
  refine h.congr_table ?_
  intro q hq
  rcases hcid q with hsame | hzero
  · refine Or.inr ⟨?_, hsame⟩
    rcases hstate q with heq | ⟨hsleep, -⟩
    · rwa [← heq]
    · rw [hsleep]
      exact Or.inr trivial
  · exact Or.inl hzero

theorem kill (pid : Int) : Housed (Ptable.kill pid t) con :=
  h.woken (kill_changes pid t).2 (kill_roused pid t).state

/-- `createContainer` only adds waiting containers. -/
theorem create : Housed t (createContainer con).2 := by
  have hstate {id : Id} (hid : con.state id = .cwaiting) :
      (createContainer con).2.state id = .cwaiting := by
    cases hfree : con.free with
    | none =>
      rw [createContainer_full hfree]
      exact hid
    | some j =>
      rw [createContainer_eq hfree]
      by_cases hj : id = j
      · subst hj
        exact set_self ..
      · exact (set_of_ne _ _ hj).trans hid
  refine ⟨hstate h.zero, ?_⟩
  intro p hp
  obtain ⟨id, hid, hwait⟩ := h.member p hp
  exact ⟨id, hid, hstate hwait⟩

/-- `destroyContainer` may take away a container that nobody is in. -/
theorem destroy {id : Id} (hne : id ≠ 0)
    (hempty : ∀ q, (t q).state.Coming → (t q).containerID ≠ id.val) :
    Housed t (destroyContainer con id) := by
  refine ⟨(set_of_ne _ _ (Ne.symm hne)).trans h.zero, ?_⟩
  intro q hq
  obtain ⟨j, hj, hwait⟩ := h.member q hq
  have hjid : j ≠ id := by
    rintro rfl
    exact hempty q hq hj
  exact ⟨j, hj, (set_of_ne _ _ hjid).trans hwait⟩

end

end Housed

section Steps

variable {C : Type} {s s' : Machine C}

/-- A process joins a container that is waiting. `destroyContainer` takes
`ctable.lock` only for a container other than 0 that no process is in, the
caller included. -/
def Careful (s : Machine C) : C × Act → Prop
  | (_, .locked (.join id)) => ∃ con, entry id = some con ∧ s.containers.state con = .cwaiting
  | (c, .store .enter) => ∀ p id, s.current c = some p → s.call p = .destroyEnter id →
    id ≠ 0 ∧ ∀ q, (s.proc q).state.Coming → (s.proc q).containerID ≠ id.val
  | _ => True

instance (s : Machine C) (l : C × Act) : Decidable (Careful s l) := by
  obtain ⟨c, a⟩ := l
  cases a with
  | store a => cases a <;> unfold Careful <;> infer_instance
  | locked a => cases a <;> unfold Careful <;> infer_instance
  | _ => exact isTrue trivial

theorem housed_userinit (C : Type) : Housed (userinit C).proc (userinit C).containers := by
  refine ⟨rfl, ?_⟩
  intro p _
  exact ⟨0, rfl, rfl⟩

variable [DecidableEq C]

theorem Housed.waitLoop {c : C} {p : Slot} (h : Housed s.proc s.containers)
    (hp : (s.proc p).state.Coming) :
    Housed (waitLoop s c p).proc (waitLoop s c p).containers := by
  rcases waitLoop_cases s c p with ⟨q, -, heq⟩ | heq | ⟨-, heq⟩
  · rw [heq]
    refine h.set_proc ?_
    rintro (hx | hx)
    · cases hx
    · exact hx.elim
  · rw [heq]
    exact h
  · rw [heq]
    exact h.set_proc (fun _ => Or.inr ⟨hp, rfl⟩)

theorem housed_step {l : C × Act} (hi : Inv s) (h : Housed s.proc s.containers)
    (hcare : Careful s l) (hstep : step s l = some s') : Housed s'.proc s'.containers := by
  have hcoming {c : C} {p : Slot} (hp : (s.cpu c).proc = some p) : (s.proc p).state.Coming :=
    Or.inr (hi.alive hp)
  cases step_cases hstep with
  | look | enter | scanEnd | scanNext | resumed | forkFull | list | destroy | destroyNext
  | destroyEnd => exact h
  | dispatch c con i q hpc hrun =>
    exact h.set_proc (fun _ => Or.inr ⟨by rw [hrun]; exact Or.inr trivial, rfl⟩)
  | wakeup c chan =>
    exact h.woken (fun q => Or.inl ((wakeup1_woken _ _).containerID q)) (wakeup1_woken _ _).state
  | slept | forkParent => exact h.set_proc (fun hx => Or.inr ⟨hx, rfl⟩)
  | waited c p hp =>
    have htidy : Housed (set s.proc p (s.proc p).tidy) s.containers :=
      h.set_proc (fun hx => Or.inr ⟨hx, rfl⟩)
    refine Housed.waitLoop (s := s.setProc p (s.proc p).tidy) htidy ?_
    change (set s.proc p (s.proc p).tidy p).state.Coming
    rw [set_self]
    exact hcoming hp
  | forkFail c p np =>
    refine h.set_proc ?_
    rintro (hx | hx)
    · cases hx
    · exact hx.elim
  | create => exact h.create
  | clear c p id live =>
    -- only the flags change, which `Housed` does not look at
    cases live <;> exact ⟨h.zero, h.member⟩
  | destroyed c p id hp hcall => exact h.destroy (hcare p id hp hcall).1 (hcare p id hp hcall).2
  | fork | forkDone => exact h.set_proc (fun _ => Or.inl rfl)
  | exit c p hp =>
    have hexit := exitTable_exited s.initproc p s.proc
    refine h.congr_table ?_
    intro q hq
    change (exitTable s.initproc p s.proc q).state.Coming at hq
    by_cases hqp : q = p
    · rw [hqp, hexit.self] at hq
      rcases hq with hq | hq
      · cases hq
      · exact hq.elim
    · refine Or.inr ⟨?_, hexit.containerID q⟩
      rcases hexit.state q hqp with heq | ⟨hsleep, -⟩
      · rwa [← heq]
      · rw [hsleep]
        exact Or.inr trivial
  | wait c p hp => exact h.waitLoop (hcoming (current_eq_some.mp hp).1)
  | kill | destroyKill => exact h.kill _
  | sleep c p a hp | yield c p hp =>
    exact h.set_proc (fun _ => Or.inr ⟨hcoming (current_eq_some.mp hp).1, rfl⟩)
  | join c p id =>
    obtain ⟨con, hcon, hwait⟩ := hcare
    refine ⟨h.zero, ?_⟩
    intro q hq
    change (addProcessToContainer (s.proc p).pid id s.proc q).state.Coming at hq
    rw [addProcessToContainer_state] at hq
    change ∃ j : Id, (addProcessToContainer (s.proc p).pid id s.proc q).containerID = j.val ∧ _
    rw [addProcessToContainer_eq]
    by_cases hpid : (s.proc q).pid = (s.proc p).pid
    · refine ⟨con, ?_, hwait⟩
      rw [if_pos hpid]
      exact entry_eq_some.mp hcon
    · simp only [if_neg hpid]
      exact h.member q hq
  | leave c p =>
    refine h.woken (fun q => ?_) (fun q => Or.inl (addProcessToContainer_state _ _ _ q))
    change (addProcessToContainer _ 0 s.proc q).containerID = _ ∨
      (addProcessToContainer _ 0 s.proc q).containerID = 0
    rw [addProcessToContainer_eq]
    by_cases hpid : (s.proc q).pid = (s.proc p).pid
    · exact Or.inr (if_pos hpid)
    · exact Or.inl (if_neg hpid)

/-- If every process joins a container that is waiting, and only empty
containers other than 0 are taken away, then container 0 is always waiting, and
every runnable process is in a container that is waiting, so that the scheduler
can select it. -/
theorem runnable_is_selectable {ls : List (C × Act)}
    (hcare : AllSteps step Careful (userinit C) ls)
    (hrun : exec step (userinit C) ls = some s) :
    s.containers.state 0 = .cwaiting ∧
    ∀ p, (s.proc p).state = .runnable → ∃ id, entry (s.proc p).containerID = some id ∧
      s.containers.state id = .cwaiting := by
  have hall : Inv s ∧ Housed s.proc s.containers :=
    exec_invariant_of_allSteps (fun s => Inv s ∧ Housed s.proc s.containers)
      ⟨inv_userinit C, housed_userinit C⟩
      (fun _ _ _ h hC hstep => ⟨inv_step h.1 hstep, housed_step h.1 h.2 hC hstep⟩) hcare hrun
  refine ⟨hall.2.zero, ?_⟩
  intro p hp
  obtain ⟨id, hid, hwait⟩ := hall.2.member p (by rw [hp]; exact Or.inr trivial)
  exact ⟨id, entry_eq_some.mpr hid, hwait⟩

end Steps

/-- Containers 1 and 2 are created; the process joins 1, moves to 2, destroys
the empty container 1 and yields. -/
def movedRun : List (Unit × Act) :=
  bootRun ++ [((), .store .create), ((), .store .create), ((), .locked (.join 1)),
    ((), .locked (.join 2)), ((), .store (.destroy 1)), ((), .store .clear), ((), .store .enter),
    ((), .locked .destroyScan), ((), .locked .yield)]

theorem runnable_is_selectable_moved :
    ∃ s, exec step (userinit Unit) movedRun = some s ∧ (s.proc 0).state = .runnable ∧
      (s.proc 0).containerID = 2 ∧ s.containers.state 1 = .cunused ∧
      ∃ id, entry (s.proc 0).containerID = some id ∧ s.containers.state id = .cwaiting := by
  obtain ⟨s, hrun, hrunnable, hcid, hgone⟩ : ∃ s, exec step (userinit Unit) movedRun = some s ∧
      (s.proc 0).state = .runnable ∧ (s.proc 0).containerID = 2 ∧
      s.containers.state 1 = .cunused := by decide +kernel
  refine ⟨s, hrun, hrunnable, hcid, hgone, (runnable_is_selectable ?_ hrun).2 0 hrunnable⟩
  decide +kernel

/-- A process joins container 5, which nobody has created, and yields: it is
runnable and no scan of the scheduler will find it. -/
theorem join_strands_process :
    ∃ s, exec step (userinit Unit)
        (bootRun ++ [((), .locked (.join 5)), ((), .locked .yield)]) = some s ∧
      (∀ d, s.call d = .user) ∧ (s.proc 0).state = .runnable ∧
      ¬ ∃ id, entry (s.proc 0).containerID = some id ∧ s.containers.state id = .cwaiting := by
  decide +kernel

end Xv6.Ptable
