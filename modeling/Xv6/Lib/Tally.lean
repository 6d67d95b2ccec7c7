import Mathlib
import Xv6.Lib.Prog

/-!
Totals over a finite table. What an entry contributes is an element of a
commutative monoid, often a function that counts, so one law says how a total
changes when an entry is stored.
-/

namespace Tally

open Prog

variable {ι β M : Type} [Fintype ι] [DecidableEq ι] [AddCommMonoid M]

/-- What the stored entry contributes takes the place of what the old one
did. -/
theorem sum_set (g : β → M) (f : ι → β) (a : ι) (b : β) :
    ∑ i, g (set f a b i) + g (f a) = ∑ i, g (f i) + g b := by
  have hsame : ∑ i ∈ Finset.univ.erase a, g (set f a b i) = ∑ i ∈ Finset.univ.erase a, g (f i) := by
    apply Finset.sum_congr rfl
    intro i hi
    rw [set_of_ne _ _ (Finset.ne_of_mem_erase hi)]
  rw [← Finset.sum_erase_add _ _ (Finset.mem_univ a), hsame, set_self,
    ← Finset.sum_erase_add (f := fun i => g (f i)) _ (Finset.mem_univ a)]
  exact add_right_comm _ _ _

theorem sum_set_same {g : β → M} {f : ι → β} {a : ι} {b : β} (h : g b = g (f a)) :
    ∑ i, g (set f a b i) = ∑ i, g (f i) := by
  apply Finset.sum_congr rfl
  intro i _
  by_cases hi : i = a
  · subst hi
    rw [set_self, h]
  · rw [set_of_ne _ _ hi]

/-! ### Counting marks -/

section Marks

variable {κ : Type} [DecidableEq κ]

/-- One mark at `k`. -/
def one (k : κ) : κ → Nat := Pi.single k 1

/-- The mark of an entry that may have none. -/
def mark : Option κ → κ → Nat
  | none => 0
  | some k => one k

theorem one_self (k : κ) : one k k = 1 := Pi.single_eq_same k 1

theorem one_of_ne {k j : κ} (h : j ≠ k) : one k j = 0 := Pi.single_eq_of_ne h 1

theorem mark_apply (m : Option κ) (k : κ) : mark m k = if m = some k then 1 else 0 := by
  cases m with
  | none => rfl
  | some j =>
    by_cases hj : j = k
    · subst hj
      simp [mark, one_self]
    · simp [mark, one_of_ne (Ne.symm hj), hj]

omit [DecidableEq ι] in
/-- A total of marks counts the entries with this mark. -/
theorem sum_mark_apply (m : ι → Option κ) (k : κ) :
    (∑ i, mark (m i)) k = (Finset.univ.filter fun i => m i = some k).card := by
  rw [Finset.sum_apply, Finset.card_filter]
  exact Finset.sum_congr rfl (fun i _ => mark_apply (m i) k)

end Marks

end Tally
