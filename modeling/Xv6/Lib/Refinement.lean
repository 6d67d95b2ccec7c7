import Xv6.Lib.Prog

/-!
Refinement between commands on two state types. A command refines another one
if from related states it ends with the same result in related states, or
stops with the same error. Two exceptions are built in: when the abstract
command reports `bad`, a use outside its contract, nothing is said about the
concrete one; and the concrete command may stop for an excused reason that the
abstract one does not know.
-/

namespace Prog

variable {σ τ ε α β : Type}

def Refines (R : σ → τ → Prop) (bad : ε) (excused : ε → Prop) (x : Prog σ ε α)
    (y : Prog τ ε α) : Prop :=
  ∀ c a, R c a → (y a).1 ≠ .error bad →
    wp x (fun r c' => (y a).1 = .ok r ∧ R c' (y a).2)
      (fun e _ => excused e ∨ (y a).1 = .error e) c

namespace Refines

variable {R : σ → τ → Prop} {bad : ε} {excused : ε → Prop}

protected theorem pure (r : α) : Refines R bad excused (pure r) (pure r) :=
  fun _ _ h _ => ⟨rfl, h⟩

protected theorem fail (e : ε) :
    Refines R bad excused (fail e : Prog σ ε α) (fail e) :=
  fun _ _ _ _ => Or.inr rfl

variable {x : Prog σ ε α} {y : Prog τ ε α}

protected theorem bind {f : α → Prog σ ε β} {g : α → Prog τ ε β} (hx : Refines R bad excused x y)
    (hf : ∀ r, Refines R bad excused (f r) (g r)) : Refines R bad excused (x >>= f) (y >>= g) := by
  intro c a hR hne
  rcases hy : y a with ⟨r | r, a'⟩
  · rw [bind_error hy] at hne ⊢
    have hrb : r ≠ bad := fun heq => hne (by rw [heq])
    have hx' := hx c a hR (by rw [hy]; simpa using hrb)
    rw [hy] at hx'
    refine wp_call hx' (fun _ _ he => he.imp_right (fun h => by cases h; rfl)) ?_
    rintro r' c' ⟨hr, -⟩
    cases hr
  · rw [bind_ok hy] at hne ⊢
    have hx' := hx c a hR (by rw [hy]; simp)
    rw [hy] at hx'
    refine wp_call hx' (fun _ _ he => he.imp_right (fun h => by cases h)) ?_
    rintro r' c' ⟨hr, hR'⟩
    cases hr
    exact hf r c' a' hR' hne

protected theorem ite {p : Prop} [Decidable p] {x' : Prog σ ε α} {y' : Prog τ ε α}
    (hpos : Refines R bad excused x y) (hneg : Refines R bad excused x' y') :
    Refines R bad excused (if p then x else x') (if p then y else y') := by
  split
  · exact hpos
  · exact hneg

protected theorem first {x : Nat → Prog σ ε (Option α)} {y : Nat → Prog τ ε (Option α)}
    (h : ∀ i, Refines R bad excused (x i) (y i)) (n i : Nat) :
    Refines R bad excused (first x n i) (first y n i) := by
  induction n generalizing i with
  | zero => exact Refines.pure none
  | succ n ih =>
    refine Refines.bind (h i) ?_
    intro r
    cases r with
    | some a => exact Refines.pure (some a)
    | none => exact ih (i + 1)

protected theorem forEach {x : α → Prog σ ε Unit} {y : α → Prog τ ε Unit}
    (h : ∀ a, Refines R bad excused (x a) (y a)) (as : List α) :
    Refines R bad excused (forEach x as) (forEach y as) := by
  induction as with
  | nil => exact Refines.pure ()
  | cons a as ih => exact Refines.bind (h a) (fun _ => ih)

/-- An abstract command that starts with a check of its contract. -/
theorem of_guard {g : τ → Prop} [DecidablePred g] {y : τ → Prog τ ε α}
    (h : ∀ c a, R c a → ¬ g a → wp x (fun r c' => (y a a).1 = .ok r ∧ R c' (y a a).2)
      (fun e _ => excused e ∨ (y a a).1 = .error e) c) :
    Refines R bad excused x (do
      let a ← gets id
      panicIf (g a) bad
      y a) := by
  intro c a hR hne
  have hrun : (do let a ← gets id; panicIf (g a) bad; y a : Prog τ ε α) a =
      (panicIf (g a) bad >>= fun _ => y a : Prog τ ε α) a := rfl
  by_cases hg : g a
  · rw [hrun, panicIf, if_pos hg] at hne
    exact absurd rfl hne
  · rw [hrun, panicIf, if_neg hg]
    exact h c a hR hg

protected theorem when {p : Prop} [Decidable p] {x : Prog σ ε Unit} {y : Prog τ ε Unit}
    (h : Refines R bad excused x y) : Refines R bad excused (when p x) (when p y) := by
  unfold Prog.when
  exact Refines.ite h (Refines.pure ())

protected theorem panicIf (p : Prop) [Decidable p] (e : ε) :
    Refines R bad excused (panicIf p e) (panicIf p e) := by
  unfold Prog.panicIf
  exact Refines.ite (Refines.fail e) (Refines.pure ())

end Refines

end Prog
