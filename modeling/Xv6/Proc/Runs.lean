import Xv6.Proc.Invariant

/-!
Runs of the process table: identifiers are unique as long as the counter has
not wrapped, a process runs on one CPU at most, and every process but the first
has a living parent, which is the only one that can reap it.
-/

namespace Xv6.Ptable

open Prog Container Transition

/-! ### Identifiers -/

structure Pids (t : Table) (nextpid : Int) : Prop where
  next : 1 ≤ nextpid
  lt : ∀ q, (t q).pid < nextpid
  pos : ∀ q, (t q).state ≠ .unused → 0 < (t q).pid
  distinct : ∀ q r, q ≠ r → (t q).state ≠ .unused → (t q).pid ≠ (t r).pid

namespace Pids

variable {t t' : Table} {nextpid : Int} {p q : Slot}

theorem congr (h : Pids t nextpid) (hpid : ∀ q, (t' q).pid = (t q).pid)
    (hstate : ∀ q, (t' q).state ≠ .unused → (t q).state ≠ .unused) : Pids t' nextpid := by
  refine ⟨h.next, ?_, ?_, ?_⟩
  · intro q
    rw [hpid]
    exact h.lt q
  · intro q hq
    rw [hpid]
    exact h.pos q (hstate q hq)
  · intro q r hqr hq
    rw [hpid, hpid]
    exact h.distinct q r hqr (hstate q hq)

/-- One slot changes, keeps its identifier and does not come into use. -/
theorem set_proc {x : Proc} (h : Pids t nextpid) (hpid : x.pid = (t p).pid)
    (hstate : x.state ≠ .unused → (t p).state ≠ .unused) : Pids (set t p x) nextpid := by
  refine h.congr (forall_set (C := fun q (x : Proc) => x.pid = (t q).pid) hpid fun _ _ => rfl) ?_
  exact forall_set (C := fun q (x : Proc) => x.state ≠ .unused → (t q).state ≠ .unused) hstate
    fun _ _ => id

/-- `allocproc` gives a slot the next identifier. -/
theorem alloc (h : Pids t nextpid) : Pids (set t p ((t p).alloc nextpid)) (nextpid + 1) := by
  have hpid (q : Slot) : (set t p ((t p).alloc nextpid) q).pid =
      if q = p then nextpid else (t q).pid := by
    by_cases hq : q = p
    · subst hq
      simp [Proc.alloc]
    · rw [set_of_ne _ _ hq, if_neg hq]
  have hnext := h.next
  refine ⟨by omega, ?_, ?_, ?_⟩
  · intro q
    have := h.lt q
    rw [hpid]
    split_ifs <;> omega
  · intro q hq
    rw [hpid]
    split_ifs with hqp
    · omega
    · rw [set_of_ne _ _ hqp] at hq
      exact h.pos q hq
  · intro q r hqr hq
    have hq' := h.lt q
    have hr' := h.lt r
    rw [hpid, hpid]
    split_ifs with hqp hrp
    · exact absurd (hqp.trans hrp.symm) hqr
    · omega
    · omega
    · rw [set_of_ne _ _ hqp] at hq
      exact h.distinct q r hqr hq

theorem reap (h : Pids t nextpid) : Pids (set t q (t q).reap) nextpid := by
  have hpid (r : Slot) : (set t q (t q).reap r).pid = if r = q then 0 else (t r).pid := by
    by_cases hr : r = q
    · subst hr
      simp [Proc.reap]
    · rw [set_of_ne _ _ hr, if_neg hr]
  have hlive {r : Slot} (hr : (set t q (t q).reap r).state ≠ .unused) :
      r ≠ q ∧ (t r).state ≠ .unused := by
    by_cases hrq : r = q
    · subst hrq
      rw [set_self] at hr
      exact absurd rfl hr
    · rw [set_of_ne _ _ hrq] at hr
      exact ⟨hrq, hr⟩
  have hnext := h.next
  refine ⟨h.next, ?_, ?_, ?_⟩
  · intro r
    have := h.lt r
    rw [hpid]
    split_ifs <;> omega
  · intro r hr
    obtain ⟨hrq, hr⟩ := hlive hr
    rw [hpid, if_neg hrq]
    exact h.pos r hr
  · intro r r' hne hr
    obtain ⟨hrq, hr⟩ := hlive hr
    have hpos := h.pos r hr
    rw [hpid, hpid, if_neg hrq]
    split_ifs with hr'
    · omega
    · exact h.distinct r r' hne hr

end Pids

section Steps

variable {C : Type} {s s' : Machine C}

/-- `nextpid++` does not overflow. -/
def PidsLeft (s : Machine C) (_ : C × Act) : Prop := s.nextpid < 2 ^ 31 - 1

instance (s : Machine C) (l : C × Act) : Decidable (PidsLeft s l) :=
  inferInstanceAs (Decidable (_ < _))

theorem pids_userinit (C : Type) : Pids (userinit C).proc (userinit C).nextpid := by
  have hstate (q : Slot) : ((userinit C).proc q).state = if q = 0 then .runnable else .unused := rfl
  have hpid (q : Slot) : ((userinit C).proc q).pid = if q = 0 then 1 else 0 := rfl
  have hnext : (userinit C).nextpid = 2 := rfl
  refine ⟨by omega, ?_, ?_, ?_⟩
  · intro q
    rw [hpid]
    split_ifs <;> omega
  · intro q hq
    rw [hstate] at hq
    rw [hpid]
    split_ifs at hq ⊢
    · decide
    · exact absurd rfl hq
  · intro q r hqr hq
    rw [hstate] at hq
    rw [hpid, hpid]
    split_ifs at hq ⊢ with h0 h1
    · exact absurd (h0.trans h1.symm) hqr
    · decide
    · exact absurd rfl hq
    · exact absurd rfl hq

theorem succPid_eq {pid : Int} (hpos : 1 ≤ pid) (h : pid < 2 ^ 31 - 1) :
    succPid pid = pid + 1 := by
  unfold succPid
  rw [Int.bmod_def]
  omega

variable [DecidableEq C]

theorem Pids.waitLoop {c : C} {p : Slot} (h : Pids s.proc s.nextpid)
    (hp : (s.proc p).state ≠ .unused) :
    Pids (waitLoop s c p).proc (waitLoop s c p).nextpid := by
  rcases waitLoop_cases s c p with ⟨q, -, heq⟩ | heq | ⟨-, heq⟩
  · rw [heq]
    exact h.reap
  · rw [heq]
    exact h
  · rw [heq]
    exact h.set_proc rfl (fun _ => hp)

theorem pids_step {l : C × Act} (hi : Inv s) (h : Pids s.proc s.nextpid) (hleft : PidsLeft s l)
    (hstep : step s l = some s') : Pids s'.proc s'.nextpid := by
  have hlive {c : C} {p : Slot} (hp : (s.cpu c).proc = some p) : (s.proc p).state ≠ .unused := by
    rw [hi.running hp]
    simp
  have hsame {t : Table} (ht : Roused s.proc t) : Pids t s.nextpid :=
    h.congr ht.pid fun q => (not_congr ((ht.state q).state_iff (by simp) (by simp))).mp
  cases step_cases hstep with
  | look | enter | scanEnd | scanNext | resumed | create | destroy | clear | destroyed
  | forkFull | list | destroyNext | destroyEnd => exact h
  | dispatch c con i q hpc hrun => exact h.set_proc rfl (fun _ => by rw [hrun]; simp)
  | wakeup c chan => exact hsame (wakeup1_roused _ _)
  | slept | forkParent => exact h.set_proc rfl id
  | waited c p hp =>
    have htidy : Pids (s.setProc p (s.proc p).tidy).proc s.nextpid := h.set_proc rfl id
    refine Pids.waitLoop (s := s.setProc p (s.proc p).tidy) htidy ?_
    change (set s.proc p (s.proc p).tidy p).state ≠ _
    rw [set_self]
    exact hlive hp
  | forkFail c p np => exact h.set_proc rfl (fun hx => absurd rfl hx)
  | fork c p np =>
    change Pids (set s.proc np ((s.proc np).alloc s.nextpid)) (succPid s.nextpid)
    rw [succPid_eq h.next hleft]
    exact h.alloc
  | forkDone c p np hp hlock hcall =>
    refine h.set_proc rfl (fun _ => ?_)
    rw [hi.family.forks p np (by rw [hcall]; rfl)]
    simp
  | exit c p hp =>
    have hexit := exitTable_exited s.initproc p s.proc
    have hrun := hi.running (current_eq_some.mp hp).1
    refine h.congr hexit.pid ?_
    intro q hq hunused
    by_cases hqp : q = p
    · rw [hqp, hrun] at hunused
      cases hunused
    · exact hq (((hexit.state q hqp).state_iff (by simp) (by simp)).mpr hunused)
  | wait c p hp => exact h.waitLoop (hlive (current_eq_some.mp hp).1)
  | kill | destroyKill => exact hsame (kill_roused _ _)
  | sleep _ _ _ hp | yield _ _ hp =>
    exact h.set_proc rfl (fun _ => hlive (current_eq_some.mp hp).1)
  | join | leave => exact hsame (addProcessToContainer_roused _ _ _)

/-! ### Runs -/

theorem inv_run {ls : List (C × Act)} (hrun : exec step (userinit C) ls = some s) : Inv s :=
  exec_invariant Inv (inv_userinit C) (fun _ _ _ => inv_step) hrun

theorem pids_run {ls : List (C × Act)} (hleft : AllSteps step PidsLeft (userinit C) ls)
    (hrun : exec step (userinit C) ls = some s) : Pids s.proc s.nextpid := by
  have hboth : Inv s ∧ Pids s.proc s.nextpid :=
    exec_invariant_of_allSteps (fun s => Inv s ∧ Pids s.proc s.nextpid)
      ⟨inv_userinit C, pids_userinit C⟩
      (fun _ _ _ h hC hstep => ⟨inv_step h.1 hstep, pids_step h.1 h.2 hC hstep⟩) hleft hrun
  exact hboth.2

/-- The invariant of the process table, in every state of every run. -/
theorem process_table_invariant {ls : List (C × Act)}
    (hrun : exec step (userinit C) ls = some s) :
    (AllSteps step PidsLeft (userinit C) ls → ∀ p q, p ≠ q → (s.proc p).state ≠ .unused →
      (s.proc q).state ≠ .unused → (s.proc p).pid ≠ (s.proc q).pid) ∧
    (s.lock = none → ∀ p, (s.proc p).state = .running ↔ ∃! c, (s.cpu c).proc = some p) ∧
    (∀ p c d, (s.cpu c).proc = some p → (s.cpu d).proc = some p → c = d) ∧
    (∀ p, p ≠ s.initproc → (s.proc p).state ≠ .unused → (s.proc p).state ≠ .embryo →
      ∃ r, (s.proc p).parent = some r ∧ (s.proc r).state.Alive) ∧
    ∀ p, p ≠ s.initproc → (s.proc p).state = .zombie →
      ∃ r, (s.proc p).parent = some r ∧ zombieChild s.proc r ≠ none ∧
        ∀ r', zombieChild s.proc r' = some p → r' = r := by
  have hinv := inv_run hrun
  have hparent (p : Slot) (hp : p ≠ s.initproc)
      (hst : (s.proc p).state.Alive ∨ (s.proc p).state = .zombie) :
      ∃ r, (s.proc p).parent = some r ∧ (s.proc r).state.Alive := by
    obtain ⟨r, hr⟩ := Option.ne_none_iff_exists'.mp (hinv.family.child p hp hst)
    exact ⟨r, hr, hinv.family.parent p r hr⟩
  refine ⟨?_, ?_, ?_, ?_, ?_⟩
  · intro hleft p q hpq hp _
    exact (pids_run hleft hrun).distinct p q hpq hp
  · intro _ p
    rw [hinv.onCpu.running p]
    constructor
    · rintro ⟨c, hc⟩
      exact ⟨c, hc, fun d hd => hinv.onCpu.unique d c p hd hc⟩
    · rintro ⟨c, hc, -⟩
      exact ⟨c, hc⟩
  · intro p c d
    exact hinv.onCpu.unique c d p
  · intro p hp hunused hembryo
    apply hparent p hp
    cases hst : (s.proc p).state <;> simp_all [ProcState.Alive]
  · intro p hp hz
    obtain ⟨r, hr, -⟩ := hparent p hp (Or.inr hz)
    refine ⟨r, hr, ?_, ?_⟩
    · intro hnone
      exact zombieChild_none hnone hr hz
    · intro r' hr'
      have := (zombieChild_some hr').1
      rw [hr] at this
      exact (Option.some.inj this).symm

end Steps

/-- The boot CPU finds `initproc` and switches to it. -/
def bootRun : List (Unit × Act) :=
  [((), .schedule), ((), .schedule), ((), .schedule), ((), .resume)]

/-- A whole `fork`. -/
def forkRun : List (Unit × Act) :=
  [((), .locked .fork), ((), .store .forkParent), ((), .locked .forkDone)]

theorem process_table_invariant_forked :
    ∃ s, exec step (userinit Unit) (bootRun ++ forkRun) = some s ∧
      (s.proc 1).state = .runnable ∧ (s.proc 0).pid ≠ (s.proc 1).pid ∧
      ∃ r, (s.proc 1).parent = some r ∧ (s.proc r).state.Alive := by
  obtain ⟨s, hrun, h0, h1, hinit⟩ : ∃ s,
      exec step (userinit Unit) (bootRun ++ forkRun) = some s ∧ (s.proc 0).state = .running ∧
      (s.proc 1).state = .runnable ∧ s.initproc = 0 := by decide +kernel
  obtain ⟨hpids, -, -, hparent, -⟩ := process_table_invariant hrun
  refine ⟨s, hrun, h1, ?_, ?_⟩
  · exact hpids (by decide +kernel) 0 1 (by decide) (by rw [h0]; simp) (by rw [h1]; simp)
  · exact hparent 1 (by rw [hinit]; decide) (by rw [h1]; simp) (by rw [h1]; simp)

end Xv6.Ptable
