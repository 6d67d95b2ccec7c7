import Xv6.Param
import Xv6.Lib.Prog

/-!
The two tables of containers: the flags `containers[]` of `syscall.c`, which
say whether an identifier is taken, and the states in `ctable`, which the
scheduler reads. Every operation has to keep them in step itself.
-/

namespace Xv6.Container

open Prog

inductive ContainerState where
  | crunning | cwaiting | cunused
deriving DecidableEq, Repr

abbrev Id := Fin NCONT

structure Tables where
  containers : Id → Bool
  state : Id → ContainerState

/-- After `containerInit`; the flags are zero, also that of container 0. -/
def containerInit : Tables where
  containers := fun _ => false
  state := fun id => if id = 0 then .cwaiting else .cunused

/-- The container that the loop of `createContainer` stops at. -/
def Tables.free (t : Tables) : Option Id :=
  (List.finRange NCONT).find? (fun id => !t.containers id && decide (id ≠ 0))

def createContainer (t : Tables) : Option Id × Tables :=
  match t.free with
  | some id =>
    (some id, { containers := set t.containers id true, state := set t.state id .cwaiting })
  | none => (none, t)

/-- The `ctable.lock` section of `destroyContainer`. -/
def destroyContainer (t : Tables) (id : Id) : Tables where
  containers := set t.containers id false
  state := set t.state id .cunused

/-- The entry an `int` argument stands for. Nothing checks the argument, and
outside the tables C does not say what an access does. -/
def entry (id : Int) : Option Id :=
  if h : 0 ≤ id ∧ id < NCONT then some ⟨id.toNat, by omega⟩ else none

theorem entry_eq_some {z : Int} {id : Id} : entry z = some id ↔ z = id.val := by
  unfold entry
  constructor
  · intro h
    split at h
    · cases h
      simp only
      omega
    · cases h
  · rintro rfl
    have hlt := id.isLt
    rw [dif_pos ⟨by omega, by omega⟩]
    simp

/-- The container is taken and the scheduler looks at it. -/
def Tables.Live (t : Tables) (id : Id) : Prop := t.containers id = true ∧ t.state id = .cwaiting

instance (t : Tables) (id : Id) : Decidable (t.Live id) := inferInstanceAs (Decidable (_ ∧ _))

variable {t : Tables} {id j : Id}

/-- The loop stops at the lowest free identifier other than 0. -/
theorem free_eq_some : t.free = some id ↔
    t.containers id = false ∧ id ≠ 0 ∧ ∀ j, j ≠ 0 → j < id → t.containers j = true := by
  unfold Tables.free
  rw [List.find?_eq_some_iff_append]
  constructor
  · rintro ⟨hp, as, bs, hsplit, has⟩
    simp only [Bool.and_eq_true, Bool.not_eq_true', decide_eq_true_eq] at hp
    refine ⟨hp.1, hp.2, ?_⟩
    intro j hj hlt
    have hmem : j ∈ as := by
      have hsorted : (as ++ id :: bs).Pairwise (· < ·) := hsplit ▸ List.pairwise_lt_finRange NCONT
      have hin : j ∈ as ++ id :: bs := hsplit ▸ List.mem_finRange j
      rcases List.mem_append.mp hin with hin | hin
      · exact hin
      · rcases List.mem_cons.mp hin with rfl | hin
        · exact absurd hlt (lt_irrefl _)
        · have := (List.pairwise_cons.mp (List.pairwise_append.mp hsorted).2.1).1 j hin
          exact absurd hlt (lt_asymm this)
    simpa [hj] using has j hmem
  · rintro ⟨hfree, hne, hlow⟩
    obtain ⟨as, bs, hsplit⟩ := List.append_of_mem (List.mem_finRange id)
    refine ⟨by simp [hfree, hne], as, bs, hsplit, ?_⟩
    intro j hj
    have hsorted : (as ++ id :: bs).Pairwise (· < ·) := hsplit ▸ List.pairwise_lt_finRange NCONT
    have hlt : j < id := (List.pairwise_append.mp hsorted).2.2 j hj id (by simp)
    by_cases h0 : j = 0
    · simp [h0]
    · simp [hlow j h0 hlt]

theorem createContainer_eq (h : t.free = some id) : createContainer t =
    (some id, { containers := set t.containers id true, state := set t.state id .cwaiting }) := by
  unfold createContainer
  rw [h]

theorem createContainer_full (h : t.free = none) : createContainer t = (none, t) := by
  unfold createContainer
  rw [h]

/-- Creating a container makes its identifier live and takes none away. -/
theorem live_createContainer (h : t.free = some id) : (createContainer t).2.Live id := by
  rw [createContainer_eq h]
  exact ⟨set_self .., set_self ..⟩

theorem Tables.Live.createContainer (h : t.Live j) : (createContainer t).2.Live j := by
  cases hfree : t.free with
  | none =>
    rw [createContainer_full hfree]
    exact h
  | some id =>
    rw [createContainer_eq hfree]
    by_cases hj : j = id
    · subst hj
      exact ⟨set_self .., set_self ..⟩
    · exact ⟨(set_of_ne _ _ hj).trans h.1, (set_of_ne _ _ hj).trans h.2⟩

theorem Tables.Live.destroyContainer (h : t.Live j) (hne : j ≠ id) :
    (destroyContainer t id).Live j :=
  ⟨(set_of_ne _ _ hne).trans h.1, (set_of_ne _ _ hne).trans h.2⟩

theorem Tables.Live.free_ne (h : t.Live id) : t.free ≠ some id := by
  intro hfree
  have := (free_eq_some.mp hfree).1
  rw [h.1] at this
  cases this

end Xv6.Container
