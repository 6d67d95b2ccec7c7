import Xv6.Container.Basic
import Xv6.Lib.Transition

/-!
`create_container` and `destroy_container` by any number of processes. The
test and the store of `containers[id]` in `sys_destroy_container` are made
without a lock, and only then does `destroyContainer` take `ctable.lock`, so a
call that has begun to destroy an identifier may still be on its way when the
identifier is given out again.
-/

namespace Xv6.Container

open Prog Transition

/-- Where a process is in `sys_destroy_container`: it has read the flag, or it
is about to enter `destroyContainer`. -/
inductive Pc where
  | idle
  | tested (id : Id) (live : Bool)
  | entering (id : Id)
deriving DecidableEq

inductive Act where
  | create
  | destroy (id : Int)
  | clear
  | lock
deriving DecidableEq

structure State (P : Type) where
  tables : Tables
  pc : P → Pc

def init (P : Type) : State P := ⟨containerInit, fun _ => .idle⟩

section Steps

variable {P : Type} [DecidableEq P]

def State.goto (s : State P) (p : P) (pc : Pc) : State P := { s with pc := set s.pc p pc }

def step (s : State P) : P × Act → Option (State P)
  | (p, a) =>
    match a, s.pc p with
    | .create, .idle => some { s with tables := (createContainer s.tables).2 }
    | .destroy id, .idle =>
      (entry id).map (fun id => s.goto p (.tested id (s.tables.containers id)))
    | .clear, .tested id live =>
      some ({ s with tables :=
        if live then { s.tables with containers := set s.tables.containers id false }
        else s.tables }.goto p (.entering id))
    | .lock, .entering id =>
      some ({ s with tables := destroyContainer s.tables id }.goto p .idle)
    | _, _ => none

/-- The process has begun to destroy `id` and not yet taken the lock. -/
def Pc.Destroys (id : Id) : Pc → Prop
  | .idle => False
  | .tested j _ | .entering j => j = id

instance (id : Id) (pc : Pc) : Decidable (pc.Destroys id) := by
  cases pc <;> unfold Pc.Destroys <;> infer_instance

/-- `createContainer` is not entered while the identifier it would stop at is
being destroyed: a destroyed identifier is still flagged, or a lower one is
free. -/
def Quiet (s : State P) (l : P × Act) : Prop :=
  l.2 = .create → ∀ p id, (s.pc p).Destroys id → id ≠ 0 →
    s.tables.containers id = true ∨ ∃ j, j ≠ 0 ∧ j < id ∧ s.tables.containers j = false

instance [Fintype P] (s : State P) (l : P × Act) : Decidable (Quiet s l) := by
  unfold Quiet
  infer_instance

variable {s s' : State P} {id : Id} {l : P × Act}

omit [DecidableEq P] in
theorem Quiet.not_destroys {p : P} (h : Quiet s (p, .create)) (hid : s.tables.free = some id)
    (q : P) : ¬ (s.pc q).Destroys id := by
  intro hq
  obtain ⟨hfree, hne, hlow⟩ := free_eq_some.mp hid
  rcases h rfl q id hq hne with hset | ⟨j, hj, hlt, hclear⟩
  · rw [hfree] at hset
    cases hset
  · rw [hlow j hj hlt] at hclear
    cases hclear

/-- The identifier is live and no call is on its way to destroy it. -/
def Kept (id : Id) (s : State P) : Prop :=
  s.tables.Live id ∧ ∀ p, ¬ (s.pc p).Destroys id

theorem Kept.goto {p : P} {pc : Pc} (h : Kept id s) (hpc : ¬ pc.Destroys id) :
    Kept id (s.goto p pc) := by
  refine ⟨h.1, ?_⟩
  intro q
  by_cases hq : q = p
  · subst hq
    simpa [State.goto] using hpc
  · simpa [State.goto, set_of_ne _ _ hq] using h.2 q

/-- Only the start of a `destroy_container(id)` ends this. -/
theorem Kept.after_step (h : Kept id s) (hstep : step s l = some s')
    (hl : ∀ p, l ≠ (p, .destroy id.val)) : Kept id s' := by
  obtain ⟨p, a⟩ := l
  simp only [step] at hstep
  split at hstep
  · cases hstep
    exact ⟨h.1.createContainer, h.2⟩
  · next z hpc =>
      obtain ⟨j, hj, rfl⟩ := Option.map_eq_some_iff.mp hstep
      have hne : j ≠ id := by
        rintro rfl
        exact hl p (by rw [entry_eq_some.mp hj])
      exact h.goto hne
  · next j live hpc =>
      cases hstep
      have hne : j ≠ id := by
        have := h.2 p
        rwa [hpc] at this
      have hlive : Kept id { s with tables :=
          if live then { s.tables with containers := set s.tables.containers j false }
          else s.tables } := by
        refine ⟨?_, h.2⟩
        cases live with
        | false => exact h.1
        | true => exact ⟨(set_of_ne _ _ (Ne.symm hne)).trans h.1.1, h.1.2⟩
      exact hlive.goto hne
  · next j hpc =>
      cases hstep
      have hne : j ≠ id := by
        have := h.2 p
        rwa [hpc] at this
      have hlive : Kept id { s with tables := destroyContainer s.tables j } :=
        ⟨h.1.destroyContainer (Ne.symm hne), h.2⟩
      have hidle : ¬ Pc.Destroys id .idle := fun hfalse => hfalse
      exact hlive.goto hidle
  · cases hstep

theorem Kept.after_run {ms : List (P × Act)} (h : Kept id s) (hrun : exec step s ms = some s')
    (hms : ∀ p, (p, .destroy id.val) ∉ ms) : Kept id s' := by
  induction ms generalizing s with
  | nil =>
    cases hrun
    exact h
  | cons l ms ih =>
    obtain ⟨m, hm, hrest⟩ := exec_cons_some.mp hrun
    refine ih (h.after_step hm ?_) hrest (fun p hp => hms p (List.mem_cons_of_mem l hp))
    rintro p rfl
    exact hms p (by simp)

theorem kept_of_create {p : P} (hquiet : Quiet s (p, .create))
    (hid : s.tables.free = some id) (hstep : step s (p, .create) = some s') : Kept id s' := by
  simp only [step] at hstep
  split at hstep
  · cases hstep
    exact ⟨live_createContainer hid, hquiet.not_destroys hid⟩
  all_goals simp_all

/-- A process on its way to destroy `id` gets there, and then it is not live. -/
theorem exists_not_live {q : P} (hq : (s.pc q).Destroys id) :
    ∃ ms s', exec step s ms = some s' ∧ (∀ p z, (p, .destroy z) ∉ ms) ∧ ¬ s'.tables.Live id := by
  have hlock (s : State P) (hpc : s.pc q = .entering id) :
      ∃ s', step s (q, .lock) = some s' ∧ ¬ s'.tables.Live id := by
    refine ⟨{ s with tables := destroyContainer s.tables id }.goto q .idle,
      by simp only [step, hpc], ?_⟩
    rintro ⟨hset, -⟩
    simp [State.goto, destroyContainer] at hset
  cases hpc : s.pc q with
  | idle =>
    rw [hpc] at hq
    exact hq.elim
  | tested j live =>
    rw [hpc] at hq
    cases hq
    obtain ⟨m, hm, hmpc⟩ : ∃ m, step s (q, .clear) = some m ∧ m.pc q = .entering id := by
      simp only [step, hpc]
      exact ⟨_, rfl, set_self ..⟩
    obtain ⟨s', hs', hdead⟩ := hlock m hmpc
    exact ⟨[(q, .clear), (q, .lock)], s', exec_cons_some.mpr
      ⟨m, hm, exec_cons_some.mpr ⟨s', hs', rfl⟩⟩, by simp, hdead⟩
  | entering j =>
    rw [hpc] at hq
    cases hq
    obtain ⟨s', hs', hdead⟩ := hlock s hpc
    exact ⟨[(q, .lock)], s', exec_cons_some.mpr ⟨s', hs', rfl⟩, by simp, hdead⟩

/-- If every `createContainer` of a run is entered at a quiet moment, then an
identifier it returns stays live, and is not returned again, until a
`destroy_container` of it starts. If one is entered at another moment, some
continuation of the run loses the identifier that was just returned. -/
theorem created_container_kept :
    (∀ (ls ms : List (P × Act)) (p : P) (s₁ s₂ : State P) (id : Id),
      exec step (init P) ls = some s₁ → (createContainer s₁.tables).1 = some id →
      exec step s₁ ((p, .create) :: ms) = some s₂ →
      AllSteps step Quiet (init P) (ls ++ (p, .create) :: ms) →
      (∀ q, (q, .destroy id.val) ∉ ms) →
      s₂.tables.Live id ∧ (createContainer s₂.tables).1 ≠ some id) ∧
    ∀ (ls : List (P × Act)) (p : P) (s₁ : State P),
      exec step (init P) ls = some s₁ → s₁.pc p = .idle → ¬ Quiet s₁ (p, .create) →
      ∃ (ms : List (P × Act)) (s₂ : State P) (id : Id),
        (createContainer s₁.tables).1 = some id ∧
        exec step s₁ ((p, .create) :: ms) = some s₂ ∧
        (∀ q, (q, .destroy id.val) ∉ ms) ∧ ¬ s₂.tables.Live id := by
  have hreturned (t : Tables) : (createContainer t).1 = t.free := by
    unfold createContainer
    cases t.free <;> rfl
  simp only [hreturned]
  refine ⟨?_, ?_⟩
  · intro ls ms p s₁ s₂ id hrun₁ hid hrun₂ hquiet hms
    obtain ⟨m, hm, hrest⟩ := exec_cons_some.mp hrun₂
    have hstep : Quiet s₁ (p, .create) := ((allSteps_append hrun₁).mp hquiet).2.1
    have hkept := (kept_of_create hstep hid hm).after_run hrest hms
    exact ⟨hkept.1, hkept.1.free_ne⟩
  · intro ls p s₁ _ hpc hnot
    simp only [Quiet, true_implies, not_forall, not_or, not_exists, not_and] at hnot
    obtain ⟨q, id, hq, hne, hclear, hlow⟩ := hnot
    have hid : s₁.tables.free = some id := by
      refine free_eq_some.mpr ⟨by simpa using hclear, hne, ?_⟩
      intro j hj hlt
      simpa using hlow j hj hlt
    have hcreate : step s₁ (p, .create) =
        some { s₁ with tables := (createContainer s₁.tables).2 } := by
      simp only [step, hpc]
    obtain ⟨ms, s₂, hrun, hms, hdead⟩ :=
      exists_not_live (s := { s₁ with tables := (createContainer s₁.tables).2 }) hq
    exact ⟨ms, s₂, id, hid, exec_cons_some.mpr ⟨_, hcreate, hrun⟩, fun q' => hms q' _, hdead⟩

end Steps

/-- Two processes: one creates container 1 and destroys it, and before it has
taken the lock the other one creates a container and is given 1 again. The
destruction that began earlier then takes the new container away. -/
theorem concurrent_destroy_loses_container :
    ∃ (ls ms : List (Bool × Act)) (s₁ s₂ : State Bool) (id : Id),
      exec step (init Bool) ls = some s₁ ∧ (createContainer s₁.tables).1 = some id ∧
      exec step s₁ ((true, .create) :: ms) = some s₂ ∧ (∀ q, (q, .destroy id.val) ∉ ms) ∧
      ¬ s₂.tables.Live id := by
  let ls : List (Bool × Act) := [(false, .create), (false, .destroy 1), (false, .clear)]
  let ms : List (Bool × Act) := [(false, .lock)]
  have hrun : ((exec step (init Bool) (ls ++ (true, .create) :: ms)).isSome) = true := by decide
  obtain ⟨s₂, hs₂⟩ := Option.isSome_iff_exists.mp hrun
  obtain ⟨s₁, hs₁, hrest⟩ := exec_append_some.mp hs₂
  have hid : (exec step (init Bool) ls).map (fun s => (createContainer s.tables).1) =
      some (some 1) := by decide
  have hdead : (exec step (init Bool) (ls ++ (true, .create) :: ms)).map
      (fun s => decide (s.tables.Live 1)) = some false := by decide
  rw [hs₁] at hid
  rw [hs₂] at hdead
  refine ⟨ls, ms, s₁, s₂, 1, hs₁, by simpa using hid, hrest, by decide, ?_⟩
  simpa using hdead

/-- Containers 1 and 2 are created, and 1 is destroyed. -/
def destroyedOne : List (Bool × Act) :=
  [(false, .create), (true, .create), (false, .destroy 1), (false, .clear), (false, .lock)]

/-- One process destroys container 2 while the other one creates two more. -/
def othersGoOn : List (Bool × Act) :=
  [(false, .destroy 2), (true, .create), (false, .clear), (false, .lock), (true, .create)]

theorem created_container_kept_recreated :
    ∃ s₁ s₂, exec step (init Bool) destroyedOne = some s₁ ∧
      (createContainer s₁.tables).1 = some 1 ∧
      exec step s₁ ((true, .create) :: othersGoOn) = some s₂ ∧ s₂.tables.Live 1 ∧
      (createContainer s₂.tables).1 ≠ some 1 := by
  have hrun : (exec step (init Bool)
      (destroyedOne ++ (true, .create) :: othersGoOn)).isSome = true := by decide
  obtain ⟨s₂, hs₂⟩ := Option.isSome_iff_exists.mp hrun
  obtain ⟨s₁, hs₁, hrest⟩ := exec_append_some.mp hs₂
  have hid : (exec step (init Bool) destroyedOne).map (fun s => (createContainer s.tables).1) =
      some (some 1) := by decide
  rw [hs₁] at hid
  have hid₁ : (createContainer s₁.tables).1 = some 1 := by simpa using hid
  exact ⟨s₁, s₂, hs₁, hid₁, hrest, created_container_kept.1 destroyedOne othersGoOn true s₁ s₂ 1
    hs₁ hid₁ hrest (by decide +kernel) (by decide)⟩

end Xv6.Container
