import Mathlib.Logic.Function.Basic

/-!
A flag that says whether a resource is taken, and marks that say who has it: one
has it at most, and the flag is set while one does.
-/

structure Exclusive {ι : Type} (locked : Bool) (holds : ι → Bool) : Prop where
  unique : ∀ i j, holds i = true → holds j = true → i = j
  locked_iff : locked = true ↔ ∃ i, holds i = true

namespace Exclusive

variable {ι : Type} {locked : Bool} {holds : ι → Bool} {i j : ι}

theorem locked_of (h : Exclusive locked holds) (hi : holds i = true) : locked = true :=
  h.locked_iff.mpr ⟨i, hi⟩

theorem not_holds (h : Exclusive false holds) (i : ι) : holds i = false := by
  by_contra hi
  have hlocked := h.locked_of (Bool.of_not_eq_false hi)
  cases hlocked

theorem other (h : Exclusive locked holds) (hi : holds i = true) (hne : j ≠ i) :
    holds j = false := by
  by_contra hj
  exact hne (h.unique j i (Bool.of_not_eq_false hj) hi)

variable [DecidableEq ι]

theorem keep (h : Exclusive locked holds) {b : Bool} (hb : b = holds i) :
    Exclusive locked (Function.update holds i b) := by
  rw [hb, Function.update_eq_self]
  exact h

theorem take (h : Exclusive false holds) (i : ι) :
    Exclusive true (Function.update holds i true) := by
  refine ⟨?_, fun _ => ⟨i, Function.update_self ..⟩, fun _ => rfl⟩
  have honly (k : ι) (hk : Function.update holds i true k = true) : k = i := by
    by_contra hne
    rw [Function.update_of_ne hne, h.not_holds k] at hk
    cases hk
  intro j k hj hk
  rw [honly j hj, honly k hk]

theorem free (h : Exclusive locked holds) (hi : holds i = true) :
    Exclusive false (Function.update holds i false) := by
  have hnone (k : ι) : Function.update holds i false k = false := by
    by_cases hk : k = i
    · rw [hk, Function.update_self]
    · rw [Function.update_of_ne hk]
      exact h.other hi hk
  constructor
  · intro j k hj
    rw [hnone j] at hj
    cases hj
  · simp [hnone]

end Exclusive
