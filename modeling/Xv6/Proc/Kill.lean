import Xv6.Proc.Runs

/-!
What `kill` and `destroyContainer` hit. Both look for a slot by its `pid`
alone, and a slot that is not in use has a `pid` too: zero, or the one that a
`fork` which failed has left there.
-/

namespace Xv6.Ptable

open Prog Container Transition

/-- What `kill` returns. -/
def killResult (pid : Int) (t : Table) : Int := if (slotOf t pid).isSome then 0 else -1

/-- Some slot in use has this `pid`. -/
def HasPid (t : Table) (pid : Int) : Prop := ∃ q, (t q).state ≠ .unused ∧ (t q).pid = pid

instance (t : Table) (pid : Int) : Decidable (HasPid t pid) :=
  inferInstanceAs (Decidable (∃ q, (t q).state ≠ _ ∧ _))

/-- `kill` tells by its result whether there is such a process, changes nothing
if there is none, and never marks a slot that is not in use. -/
structure KillsProcess (t : Table) (pid : Int) : Prop where
  result : killResult pid t = 0 ↔ HasPid t pid
  frame : ¬ HasPid t pid → kill pid t = t
  spares : ∀ q, (t q).state = .unused → (kill pid t q).killed = false

/-- The slot that the scan of `kill` stops at, if any, is in use. -/
def Used (t : Table) (pid : Int) : Prop := ∀ q ∈ slotOf t pid, (t q).state ≠ .unused

instance (t : Table) (pid : Int) : Decidable (Used t pid) :=
  inferInstanceAs (Decidable (∀ q ∈ slotOf t pid, _))

/-- The slot is that of a process, one that `fork` has finished. -/
def Forked (t : Table) (pid : Int) : Prop :=
  ∀ q ∈ slotOf t pid, (t q).state ≠ .unused ∧ (t q).state ≠ .embryo

instance (t : Table) (pid : Int) : Decidable (Forked t pid) :=
  inferInstanceAs (Decidable (∀ q ∈ slotOf t pid, _))

/-- No slot without a process, and none in which `fork` makes one, is marked. -/
def Unharmed (t : Table) : Prop :=
  ∀ q, (t q).state = .unused ∨ (t q).state = .embryo → (t q).killed = false

section Kill

variable {t t' : Table} {p q r : Slot} {pid : Int}

theorem kill_eq (h : slotOf t pid = some r) : kill pid t = set t r (t r).kill := by
  unfold kill
  rw [h]

theorem kill_eq_self (h : slotOf t pid = none) : kill pid t = t := by
  unfold kill
  rw [h]

theorem exists_slotOf (q : Slot) : ∃ r, slotOf t (t q).pid = some r := by
  cases h : slotOf t (t q).pid with
  | some r => exact ⟨r, rfl⟩
  | none => exact absurd rfl (slotOf_none h)

theorem killsProcess_iff (h : Unharmed t) : KillsProcess t pid ↔ Used t pid := by
  constructor
  · intro hk q hq hunused
    have hq' : slotOf t pid = some q := hq
    have hmark := hk.spares q hunused
    rw [kill_eq hq', set_self] at hmark
    cases hmark
  · intro hused
    cases hr : slotOf t pid with
    | some r =>
      have hlive : HasPid t pid := ⟨r, hused r hr, slotOf_pid hr⟩
      refine ⟨iff_of_true (by simp [killResult, hr]) hlive, fun hnot => absurd hlive hnot, ?_⟩
      intro q hq
      have hne : q ≠ r := by
        rintro rfl
        exact hused q hr hq
      rw [kill_eq hr, set_of_ne _ _ hne]
      exact h q (Or.inl hq)
    | none =>
      have hnot : ¬ HasPid t pid := by
        rintro ⟨q, -, hq⟩
        exact slotOf_none hr hq
      refine ⟨iff_of_false (by simp [killResult, hr]) hnot, fun _ => kill_eq_self hr, ?_⟩
      intro q hq
      rw [kill_eq_self hr]
      exact h q (Or.inl hq)

namespace Unharmed

/-- Slots keep their mark, and none goes out of use. -/
theorem congr (h : Unharmed t) (hkilled : ∀ q, (t' q).killed = (t q).killed)
    (hstate : ∀ q, (t' q).state = .unused ∨ (t' q).state = .embryo →
      (t q).state = .unused ∨ (t q).state = .embryo) : Unharmed t' := by
  intro q hq
  rw [hkilled]
  exact h q (hstate q hq)

/-- One slot changes. -/
theorem set_proc {x : Proc} (h : Unharmed t)
    (hx : x.state = .unused ∨ x.state = .embryo → x.killed = false) : Unharmed (set t p x) := by
  intro q hq
  by_cases hqp : q = p
  · subst hqp
    rw [set_self] at hq ⊢
    exact hx hq
  · rw [set_of_ne _ _ hqp] at hq ⊢
    exact h q hq

theorem kill (h : Unharmed t) (hforked : Forked t pid) : Unharmed (kill pid t) := by
  cases hr : slotOf t pid with
  | none =>
    rw [kill_eq_self hr]
    exact h
  | some r =>
    obtain ⟨hunused, hembryo⟩ := hforked r hr
    rw [kill_eq hr]
    refine h.set_proc fun hx => ?_
    have hsame : ¬ ((t r).state = .unused ∨ (t r).state = .embryo) := fun hc =>
      hc.elim hunused hembryo
    unfold Proc.kill at hx
    dsimp only at hx
    split at hx
    · rcases hx with hx | hx
      · cases hx
      · cases hx
    · exact absurd hx hsame

end Unharmed

theorem wakeup1_killed (chan : Option Chan) (t : Table) (q : Slot) :
    (wakeup1 chan t q).killed = (t q).killed := by
  unfold wakeup1
  split <;> rfl

theorem passChild_killed (initproc p x : Slot) (t : Table) (q : Slot) :
    (passChild initproc p t x q).killed = (t q).killed := by
  have hset : (set t x { t x with parent := some initproc } q).killed = (t q).killed := by
    by_cases hq : q = x
    · subst hq
      simp
    · rw [set_of_ne _ _ hq]
  unfold passChild
  split
  · dsimp only
    split
    · rw [wakeup1_killed]
      exact hset
    · exact hset
  · rfl

theorem foldl_passChild_killed (initproc p : Slot) (l : List Slot) (t : Table) (q : Slot) :
    (l.foldl (passChild initproc p) t q).killed = (t q).killed := by
  induction l generalizing t with
  | nil => rfl
  | cons x l ih =>
    rw [List.foldl_cons, ih]
    exact passChild_killed initproc p x t q

theorem exitTable_killed (initproc p : Slot) (t : Table) (q : Slot) :
    (exitTable initproc p t q).killed = (t q).killed := by
  have hloop := (foldl_passChild_killed initproc p (List.finRange NPROC)
    (wakeup1 ((t p).parent.map .proc) t) q).trans (wakeup1_killed _ t q)
  simp only [exitTable]
  generalize (List.finRange NPROC).foldl (passChild initproc p)
    (wakeup1 ((t p).parent.map .proc) t) = m at hloop ⊢
  by_cases hq : q = p
  · subst hq
    rw [set_self]
    exact hloop
  · rw [set_of_ne _ _ hq]
    exact hloop

end Kill

section Steps

variable {C : Type} {s s' : Machine C}

/-- Calls of `kill`, also those that `destroyContainer` makes, stop at the slot
of a process. -/
def Aimed (s : Machine C) : C × Act → Prop
  | (_, .locked (.kill pid)) => Forked s.proc pid
  | (c, .locked .destroyKill) =>
    match (s.current c).map s.call with
    | some (.destroyKill _ _ pid) => Forked s.proc pid
    | _ => True
  | _ => True

instance (s : Machine C) (l : C × Act) : Decidable (Aimed s l) := by
  unfold Aimed
  split
  · infer_instance
  · split <;> infer_instance
  · infer_instance

theorem unharmed_userinit (C : Type) : Unharmed (userinit C).proc := fun _ _ => rfl

variable [DecidableEq C]

theorem Unharmed.waitLoop {c : C} {p : Slot} (h : Unharmed s.proc) :
    Unharmed (waitLoop s c p).proc := by
  rcases waitLoop_cases s c p with ⟨q, -, heq⟩ | heq | ⟨-, heq⟩
  · rw [heq]
    exact h.set_proc fun _ => rfl
  · rw [heq]
    exact h
  · rw [heq]
    refine h.set_proc ?_
    rintro (hx | hx)
    · cases hx
    · cases hx

theorem unharmed_step {l : C × Act} (hi : Inv s) (h : Unharmed s.proc) (haimed : Aimed s l)
    (hstep : step s l = some s') : Unharmed s'.proc := by
  have hbusy {x : Proc} {p : Slot} (hx : x.state ≠ .unused ∧ x.state ≠ .embryo) :
      Unharmed (set s.proc p x) :=
    h.set_proc fun hc => absurd hc fun hc => hc.elim hx.1 hx.2
  have hrises {t : Table} {q : Slot} (hr : Rises s.proc t q)
      (hq : (t q).state = .unused ∨ (t q).state = .embryo) :
      (s.proc q).state = .unused ∨ (s.proc q).state = .embryo := by
    rwa [hr.state_iff (by simp) (by simp), hr.state_iff (by simp) (by simp)] at hq
  have hmember (pid id : Int) : Unharmed (addProcessToContainer pid id s.proc) :=
    h.congr (fun q => by rw [addProcessToContainer_eq]) fun q =>
      hrises ((addProcessToContainer_roused _ _ _).state q)
  cases step_cases hstep with
  | look | enter | scanEnd | scanNext | resumed | create | destroy | clear | destroyed
  | forkFull | list | destroyNext | destroyEnd => exact h
  | dispatch c con i q hpc hrun => exact hbusy (by simp [Proc.setState])
  | wakeup c chan =>
    exact h.congr (wakeup1_killed _ _) fun q => hrises ((wakeup1_woken _ _).state q)
  | slept c p hp => exact h.set_proc (h p)
  | waited c p hp =>
    exact Unharmed.waitLoop (s := s.setProc p (s.proc p).tidy) (h.set_proc (h p))
  | forkFail c p np hp hcall =>
    have hembryo := hi.family.forks p np (by rw [hcall]; rfl)
    exact h.set_proc fun _ => h np (Or.inr hembryo)
  | forkParent c p np => exact h.set_proc (h np)
  | fork c p np hp hlock hcall hnp => exact h.set_proc fun _ => h np (Or.inl (unusedSlot_state hnp))
  | forkDone c p np => exact hbusy (by simp [Proc.start])
  | exit c p hp =>
    have hexit := exitTable_exited s.initproc p s.proc
    refine h.congr (exitTable_killed _ _ _) fun q hq => ?_
    replace hq : (exitTable s.initproc p s.proc q).state = .unused ∨
      (exitTable s.initproc p s.proc q).state = .embryo := hq
    by_cases hqp : q = p
    · rw [hqp, hexit.self] at hq
      simp at hq
    · exact hrises (hexit.state q hqp) hq
  | wait c p hp => exact h.waitLoop
  | kill c p pid => exact h.kill haimed
  | sleep c p a hp => exact hbusy (by simp [Proc.sleep])
  | yield c p hp => exact hbusy (by simp [Proc.setState])
  | join | leave => exact hmember _ _
  | destroyKill c p q id pid hp hlock hcall =>
    refine h.kill ?_
    simpa only [Aimed, hp, Option.map_some, hcall] using haimed

theorem unharmed_run {ls : List (C × Act)} (haimed : AllSteps step Aimed (userinit C) ls)
    (hrun : exec step (userinit C) ls = some s) : Unharmed s.proc := by
  have hboth : Inv s ∧ Unharmed s.proc :=
    exec_invariant_of_allSteps (fun s => Inv s ∧ Unharmed s.proc)
      ⟨inv_userinit C, unharmed_userinit C⟩
      (fun _ _ _ h hC hstep => ⟨inv_step h.1 hstep, unharmed_step h.1 h.2 hC hstep⟩) haimed hrun
  exact hboth.2

/-- If no call of `kill` has stopped at a slot without a process, no such slot
is marked, a child starts unmarked, and the next call of `kill` is right exactly
if it does not stop at such a slot either. -/
theorem kill_affects_processes {ls : List (C × Act)}
    (haimed : AllSteps step Aimed (userinit C) ls)
    (hrun : exec step (userinit C) ls = some s) :
    (∀ q, (s.proc q).state = .unused → (s.proc q).killed = false) ∧
    (∀ c p np s', s.current c = some p → s.call p = .forkCopied np →
      step s (c, .locked .forkDone) = some s' → (s'.proc np).killed = false) ∧
    ∀ pid, KillsProcess s.proc pid ↔ Used s.proc pid := by
  have h := unharmed_run haimed hrun
  refine ⟨fun q hq => h q (Or.inl hq), ?_, fun pid => killsProcess_iff h⟩
  intro c p np s' hp hcall hstep
  have hembryo := (inv_run hrun).family.forks p np (by rw [hcall]; rfl)
  cases step_cases hstep with
  | forkDone c p' np' hp' hlock hcall' =>
    obtain rfl : p = p' := Option.some.inj (hp.symm.trans hp')
    obtain rfl : np = np' := by
      rw [hcall] at hcall'
      cases hcall'
      rfl
    change (set s.proc np (s.proc np).start np).killed = false
    rw [set_self]
    exact h np (Or.inr hembryo)

end Steps

/-- The first process kills process 0, which is no process: the call succeeds
and marks a slot that is not in use, and the next child is born marked. -/
theorem kill_marks_unused :
    ∃ s, exec step (userinit Unit) (bootRun ++ [((), .locked (.kill 0))]) = some s ∧
      killResult 0 s.proc = 0 ∧ ¬ HasPid s.proc 0 ∧ (s.proc 1).state = .unused ∧
      (s.proc 1).killed = true ∧ ∃ s', exec step s forkRun = some s' ∧
        (s'.proc 1).state = .runnable ∧ (s'.proc 1).killed = true := by
  decide +kernel

theorem kill_affects_processes_child :
    ∃ s, exec step (userinit Unit) (bootRun ++ forkRun ++ [((), .locked (.kill 2))]) = some s ∧
      (s.proc 1).killed = true ∧ (s.proc 2).killed = false ∧ KillsProcess s.proc 2 := by
  obtain ⟨s, hrun, hmark, hunused, hused⟩ : ∃ s,
      exec step (userinit Unit) (bootRun ++ forkRun ++ [((), .locked (.kill 2))]) = some s ∧
      (s.proc 1).killed = true ∧ (s.proc 2).state = .unused ∧ Used s.proc 2 := by decide +kernel
  obtain ⟨hspared, -, hkill⟩ := kill_affects_processes (by decide +kernel) hrun
  exact ⟨s, hrun, hmark, hspared 2 hunused, (hkill 2).mpr hused⟩

/-! ### `destroyContainer` -/

/-- The loop of `destroyContainer` over the processes, with nothing in between. -/
def killMembers (id : Int) (t : Table) : Table :=
  (List.finRange NPROC).foldl (fun t q => if (t q).containerID = id then kill (t q).pid t else t) t

/-- A process of the container. -/
def Member (t : Table) (id : Int) (q : Slot) : Prop :=
  (t q).state ≠ .unused ∧ (t q).containerID = id

instance (t : Table) (id : Int) (q : Slot) : Decidable (Member t id q) :=
  inferInstanceAs (Decidable (_ ∧ _))

/-- The table in which exactly the processes of the container are killed. -/
def membersKilled (id : Int) (t : Table) : Table := fun q =>
  if Member t id q then (t q).kill else t q

/-- Each process of the container is the one that `kill` finds by its `pid`, and
the `pid` of another slot with the container's number leads to a process of the
container too, or to a slot that `kill` leaves as it is. -/
structure Reached (t : Table) (id : Int) : Prop where
  self : ∀ q, Member t id q → slotOf t (t q).pid = some q
  only : ∀ q r, (t q).containerID = id → slotOf t (t q).pid = some r →
    Member t id r ∨ (t r).kill = t r

section Members

variable {t : Table} {id : Int} {q r : Slot}

theorem Proc.kill_kill (x : Proc) : x.kill.kill = x.kill := by
  unfold Proc.kill
  dsimp only
  split
  · simp
  · simp

/-- Among the slots `l` one has the number of the container and the `pid` by
which `kill` finds `r`. -/
def Hit (t : Table) (id : Int) (l : List Slot) (r : Slot) : Prop :=
  ∃ q ∈ l, (t q).containerID = id ∧ slotOf t (t q).pid = some r

instance (t : Table) (id : Int) (l : List Slot) (r : Slot) : Decidable (Hit t id l r) :=
  inferInstanceAs (Decidable (∃ q ∈ l, _))

theorem Hit.slotOf_self {l : List Slot} (h : Hit t id l r) : slotOf t (t r).pid = some r := by
  obtain ⟨q, -, -, hr⟩ := h
  rw [slotOf_pid hr]
  exact hr

/-- The loop after the slots `l`. -/
def hitTable (t : Table) (id : Int) (l : List Slot) : Table := fun r =>
  if Hit t id l r then (t r).kill else t r

theorem hitTable_pid (l : List Slot) (r : Slot) : (hitTable t id l r).pid = (t r).pid := by
  unfold hitTable
  split <;> rfl

theorem slotOf_hitTable (l : List Slot) (pid : Int) :
    slotOf (hitTable t id l) pid = slotOf t pid := by
  unfold slotOf
  simp only [hitTable_pid]

/-- One round of the loop. -/
theorem hitTable_concat (hid : id ≠ 0) (l : List Slot) (q : Slot) :
    hitTable t id (l ++ [q]) = if (hitTable t id l q).containerID = id
      then kill (hitTable t id l q).pid (hitTable t id l) else hitTable t id l := by
  have hmem (r : Slot) : Hit t id (l ++ [q]) r ↔
      Hit t id l r ∨ (t q).containerID = id ∧ slotOf t (t q).pid = some r := by
    simp [Hit, or_and_right, exists_or]
  -- a slot that was hit before has left the container
  have hcontainer : (hitTable t id l q).containerID = id ↔
      ¬ Hit t id l q ∧ (t q).containerID = id := by
    unfold hitTable
    split
    · next h => exact iff_of_false (fun hc => hid hc.symm) (fun hc => hc.1 h)
    · next h => exact ⟨fun hc => ⟨h, hc⟩, fun hc => hc.2⟩
  obtain ⟨r, hr⟩ := exists_slotOf (t := t) q
  funext x
  split
  · next hin =>
      obtain ⟨hnot, hq⟩ := hcontainer.mp hin
      have hslot : slotOf (hitTable t id l) (hitTable t id l q).pid = some r := by
        rw [slotOf_hitTable, hitTable_pid]
        exact hr
      rw [kill_eq hslot]
      by_cases hx : x = r
      · subst hx
        rw [set_self]
        unfold hitTable
        rw [if_pos ((hmem x).mpr (Or.inr ⟨hq, hr⟩))]
        split
        · exact (Proc.kill_kill _).symm
        · rfl
      · rw [set_of_ne _ _ hx]
        unfold hitTable
        refine if_congr ?_ rfl rfl
        rw [hmem]
        refine ⟨fun hc => hc.resolve_right fun hc => ?_, Or.inl⟩
        exact hx (Option.some.inj (hc.2.symm.trans hr))
  · next hout =>
      unfold hitTable
      refine if_congr ?_ rfl rfl
      rw [hmem]
      refine ⟨fun hc => hc.elim (fun hhit => hhit) fun hc => ?_, Or.inl⟩
      have hhit : Hit t id l q := by
        by_contra hnot
        exact hout (hcontainer.mpr ⟨hnot, hc.1⟩)
      have hself := hhit.slotOf_self
      rw [hc.2, Option.some_inj] at hself
      rwa [hself]

theorem foldl_killMembers (hid : id ≠ 0) (l l' : List Slot) :
    l'.foldl (fun t q => if (t q).containerID = id then kill (t q).pid t else t) (hitTable t id l) =
      hitTable t id (l ++ l') := by
  induction l' generalizing l with
  | nil => rw [List.foldl_nil, List.append_nil]
  | cons q l' ih =>
    rw [List.foldl_cons, ← hitTable_concat hid, ih, List.append_assoc, List.singleton_append]

theorem killMembers_eq (hid : id ≠ 0) : killMembers id t = hitTable t id (List.finRange NPROC) := by
  have hnil : hitTable t id [] = t := by
    funext r
    simp [hitTable, Hit]
  have hloop := foldl_killMembers (t := t) hid [] (List.finRange NPROC)
  rw [hnil, List.nil_append] at hloop
  exact hloop

theorem killMembers_eq_iff (hid : id ≠ 0) :
    killMembers id t = membersKilled id t ↔ Reached t id := by
  rw [killMembers_eq hid]
  have hmoved {r : Slot} (hr : Member t id r) : (t r).kill ≠ t r := by
    intro heq
    exact hid (hr.2.symm.trans (congrArg Proc.containerID heq).symm)
  constructor
  · intro heq
    have hat (r : Slot) : hitTable t id (List.finRange NPROC) r = membersKilled id t r :=
      congrFun heq r
    refine ⟨fun q hq => ?_, fun q r hq hr => ?_⟩
    · have hkill := hat q
      unfold hitTable membersKilled at hkill
      rw [if_pos hq] at hkill
      split at hkill
      · next hhit => exact hhit.slotOf_self
      · exact absurd hkill.symm (hmoved hq)
    · by_contra hnot
      rw [not_or] at hnot
      have hkill := hat r
      unfold hitTable membersKilled at hkill
      rw [if_neg hnot.1, if_pos ⟨q, List.mem_finRange q, hq, hr⟩] at hkill
      exact hnot.2 hkill
  · intro h
    funext r
    unfold hitTable membersKilled
    by_cases hr : Member t id r
    · rw [if_pos hr, if_pos ⟨r, List.mem_finRange r, hr.2, h.self r hr⟩]
    · rw [if_neg hr]
      split
      · next hhit =>
          obtain ⟨q, -, hq, hslot⟩ := hhit
          exact (h.only q r hq hslot).resolve_left hr
      · rfl

end Members

section Destroy

variable {C : Type} [DecidableEq C] {s : Machine C}

/-- The steps of a process in the loop of `destroyContainer`. -/
def InLoop (c : C) (l : C × Act) : Prop :=
  l = (c, .locked .destroyScan) ∨ l = (c, .locked .destroyKill)

/-- The part of the loop over the slots from `i` on. -/
def killFrom (id : Int) (i : Nat) (t : Table) : Table :=
  ((List.finRange NPROC).drop i).foldl
    (fun t q => if (t q).containerID = id then kill (t q).pid t else t) t

theorem killFrom_zero (id : Int) (t : Table) : killFrom id 0 t = killMembers id t := by
  unfold killFrom killMembers
  rw [List.drop_zero]

theorem killFrom_of_le {id : Int} {i : Nat} {t : Table} (h : NPROC ≤ i) : killFrom id i t = t := by
  unfold killFrom
  rw [List.drop_of_length_le (by simpa using h)]
  rfl

theorem killFrom_of_lt {id : Int} {i : Nat} {t : Table} (h : i < NPROC) : killFrom id i t =
    killFrom id (i + 1)
      (if (t ⟨i, h⟩).containerID = id then kill (t ⟨i, h⟩).pid t else t) := by
  have hdrop : (List.finRange NPROC).drop i = ⟨i, h⟩ :: (List.finRange NPROC).drop (i + 1) := by
    rw [List.drop_eq_getElem_cons (by simpa using h)]
    simp
  unfold killFrom
  rw [hdrop]
  rfl

/-- The scan goes straight to the next process of the container. -/
theorem killFrom_nextMember {id : Int} {i : Nat} {t : Table} : killFrom id i t =
    match nextMember t id i with
    | none => t
    | some q => killFrom id (q.val + 1) (kill (t q).pid t) := by
  have hskip (n : Nat) : ∀ i, NPROC - i = n →
      (∀ q : Slot, i ≤ q.val → (t q).containerID ≠ id) → killFrom id i t = t := by
    induction n with
    | zero => exact fun i hi _ => killFrom_of_le (by omega)
    | succ n ih =>
      intro i hi hout
      have hlt : i < NPROC := by omega
      rw [killFrom_of_lt hlt, if_neg (hout ⟨i, hlt⟩ (Nat.le_refl i))]
      exact ih (i + 1) (by omega) fun q hq => hout q (by omega)
  have hgo (q : Slot) (n : Nat) : ∀ i, q.val - i = n → i ≤ q.val →
      (∀ r : Slot, i ≤ r.val → r < q → (t r).containerID ≠ id) →
      killFrom id i t = killFrom id q.val t := by
    induction n with
    | zero =>
      intro i hi hle _
      rw [show i = q.val by omega]
    | succ n ih =>
      intro i hi hle hout
      have hlt : i < NPROC := by omega
      have hbefore : (⟨i, hlt⟩ : Slot) < q := by
        rw [Fin.lt_def]
        change i < q.val
        omega
      rw [killFrom_of_lt hlt, if_neg (hout ⟨i, hlt⟩ (Nat.le_refl i) hbefore)]
      exact ih (i + 1) (by omega) (by omega) fun r hr => hout r (by omega)
  cases hnext : nextMember t id i with
  | none =>
    refine hskip _ i rfl fun q hq => nextMember_skipped hq fun r hr => ?_
    rw [hnext] at hr
    cases hr
  | some q =>
    obtain ⟨hle, hid⟩ := nextMember_some hnext
    have hbefore : ∀ r : Slot, i ≤ r.val → r < q → (t r).containerID ≠ id := by
      intro r hr hlt
      refine nextMember_skipped hr fun x hx => ?_
      rw [hnext] at hx
      cases hx
      exact hlt
    rw [hgo q _ i rfl hle hbefore, killFrom_of_lt q.isLt, if_pos hid]

/-- Left alone, a process in `destroyContainer` gets to the end of the loop. -/
theorem destroyContainer_runs {c : C} {p : Slot} {id : Id} (n i : Nat) (hn : NPROC - i = n)
    {s : Machine C} (hp : s.current c = some p) (hlock : s.lock = none)
    (hcall : s.call p = .destroyScan id i) :
    ∃ ls, (∀ l ∈ ls, InLoop c l) ∧ exec step s ls =
      some ({ s with proc := killFrom id.val i s.proc }.setCall p .user) := by
  induction n using Nat.strong_induction_on generalizing i s with
  | _ n ih =>
    rw [killFrom_nextMember]
    cases hnext : nextMember s.proc id.val i with
    | none =>
      have hscan : step s (c, .locked .destroyScan) = some (s.setCall p .user) := by
        simp only [step, if_pos hlock, hp, Option.bind_some, locked, hcall, hnext]
      refine ⟨[(c, .locked .destroyScan)], ?_, ?_⟩
      · intro l hl
        exact Or.inl (List.mem_singleton.mp hl)
      · simp only [exec, hscan, Option.bind_some]
    | some q =>
      have hscan : step s (c, .locked .destroyScan) =
          some (s.setCall p (.destroyKill id q (s.proc q).pid)) := by
        simp only [step, if_pos hlock, hp, Option.bind_some, locked, hcall, hnext]
      dsimp only
      -- `kill` follows, and the scan goes on behind the slot
      let s₁ := s.setCall p (.destroyKill id q (s.proc q).pid)
      let s₂ : Machine C := { s with proc := kill (s.proc q).pid s.proc }.setCall p
        (.destroyScan id (q.val + 1))
      have hkill : step s₁ (c, .locked .destroyKill) = some s₂ := by
        have hcall₁ : s₁.call p = .destroyKill id q (s.proc q).pid := set_self ..
        have hp₁ : s₁.current c = some p := hp
        have hlock₁ : s₁.lock = none := hlock
        simp only [step, if_pos hlock₁, hp₁, Option.bind_some, locked, hcall₁]
        simp [s₁, s₂, Machine.setCall]
      have hle := (nextMember_some hnext).1
      have hlt := q.isLt
      obtain ⟨ls, hls, hrun⟩ := ih (NPROC - (q.val + 1)) (by omega) (q.val + 1) rfl (s := s₂)
        hp hlock (set_self ..)
      refine ⟨(c, .locked .destroyScan) :: (c, .locked .destroyKill) :: ls, ?_, ?_⟩
      · intro l hl
        rcases List.mem_cons.mp hl with rfl | hl
        · exact Or.inl rfl
        · rcases List.mem_cons.mp hl with rfl | hl
          · exact Or.inr rfl
          · exact hls l hl
      · rw [exec_cons_some]
        refine ⟨s₁, hscan, ?_⟩
        rw [exec_cons_some]
        refine ⟨s₂, hkill, ?_⟩
        rw [hrun]
        simp [s₂, Machine.setCall]

/-- Run without interference, `destroyContainer` kills exactly the processes of
the container if `kill` finds each of them by its `pid` and nothing else. -/
theorem destroyContainer_kills_members {c : C} {p : Slot} {id : Id} (hid : id ≠ 0)
    (hp : s.current c = some p) (hlock : s.lock = none) (hcall : s.call p = .destroyScan id 0) :
    ∃ ls s', (∀ l ∈ ls, InLoop c l) ∧ exec step s ls = some s' ∧ s'.call p = .user ∧
      s' = { s with proc := s'.proc, call := s'.call } ∧
      (s'.proc = membersKilled id.val s.proc ↔ Reached s.proc id.val) := by
  obtain ⟨ls, hls, hrun⟩ := destroyContainer_runs _ 0 rfl hp hlock hcall
  have hne : (id.val : Int) ≠ 0 := by
    intro h0
    exact hid (Fin.ext (by simpa using h0))
  obtain ⟨t, ht⟩ : ∃ t, t = killMembers id.val s.proc := ⟨_, rfl⟩
  rw [killFrom_zero, ← ht] at hrun
  refine ⟨ls, _, hls, hrun, set_self .., rfl, ?_⟩
  change t = _ ↔ _
  rw [ht]
  exact killMembers_eq_iff hne

end Destroy

/-- On two CPUs: the first process forks, the child joins container 1 and exits,
and its parent reaps it and calls `destroyContainer(1)`. -/
def reapedRun : List (Bool × Act) :=
  [(false, .schedule), (false, .schedule), (false, .schedule), (false, .resume),
    (false, .locked .fork), (false, .store .forkParent), (false, .locked .forkDone),
    (false, .store .create), (true, .schedule), (true, .schedule), (true, .schedule),
    (true, .schedule), (true, .resume), (true, .locked (.join 1)), (true, .locked .exit)] ++
  List.replicate 63 (true, .schedule) ++
  [(false, .locked .wait), (false, .store (.destroy 1)), (false, .store .clear),
    (false, .store .enter)]

/-- The slot of the child still has the number of the container. Its `pid` is
zero, and `kill` marks the first slot with that `pid`. -/
theorem destroyContainer_marks_unused :
    ∃ s, exec step (userinit Bool) reapedRun = some s ∧ s.current false = some 0 ∧
      s.lock = none ∧ s.call 0 = .destroyScan 1 0 ∧ ∃ s',
      exec step s [(false, .locked .destroyScan), (false, .locked .destroyKill),
        (false, .locked .destroyScan)] = some s' ∧ s'.call 0 = .user ∧
      (∀ q, ¬ Member s.proc 1 q) ∧ (s.proc 1).state = .unused ∧ (s.proc 1).killed = false ∧
      (s'.proc 1).killed = true ∧ s'.proc ≠ membersKilled 1 s.proc := by
  decide +kernel

theorem destroyContainer_kills_members_own :
    ∃ s s' ls, exec step (userinit Unit) (bootRun ++ [((), .store .create),
        ((), .locked (.join 1)), ((), .store (.destroy 1)), ((), .store .clear),
        ((), .store .enter)]) = some s ∧ Member s.proc 1 0 ∧ exec step s ls = some s' ∧
      s'.proc = membersKilled 1 s.proc ∧ (s'.proc 0).killed = true := by
  obtain ⟨s, hrun, hp, hlock, hcall, hmember, honly, hself⟩ : ∃ s,
      exec step (userinit Unit) (bootRun ++ [((), .store .create), ((), .locked (.join 1)),
        ((), .store (.destroy 1)), ((), .store .clear), ((), .store .enter)]) = some s ∧
      s.current () = some 0 ∧ s.lock = none ∧ s.call 0 = .destroyScan 1 0 ∧ Member s.proc 1 0 ∧
      (∀ q, (s.proc q).containerID = 1 → q = 0) ∧ slotOf s.proc (s.proc 0).pid = some 0 := by
    decide +kernel
  obtain ⟨ls, s', -, hrun', -, -, hiff⟩ :=
    destroyContainer_kills_members (show (1 : Id) ≠ 0 by decide) hp hlock hcall
  have hreached : Reached s.proc 1 := by
    refine ⟨fun q hq => ?_, fun q r hq hr => ?_⟩
    · rw [honly q hq.2]
      exact hself
    · rw [honly q hq, hself, Option.some_inj] at hr
      exact Or.inl (hr ▸ hmember)
  have hkilled := hiff.mpr hreached
  refine ⟨s, s', ls, hrun, hmember, hrun', hkilled, ?_⟩
  rw [hkilled, show membersKilled (1 : Id).val s.proc 0 = (s.proc 0).kill from if_pos hmember]
  rfl

end Xv6.Ptable
