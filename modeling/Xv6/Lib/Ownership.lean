import Mathlib.Logic.Function.Basic
import Mathlib.Algebra.Notation.Defs
import Mathlib.Data.Set.Card

/-!
A ledger of resources: a table that says which resource each place holds, with
zero for a place that holds none, and the set of resources that are taken. The
two agree when every resource is held at most once and the ones that are held
are exactly those taken.
-/

structure Owns {ι β : Type} [Zero β] (own : ι → β) (used : β → Prop) : Prop where
  unique : ∀ p q, own p = own q → own p ≠ 0 → p = q
  used_iff : ∀ b, used b ↔ b ≠ 0 ∧ ∃ p, own p = b

namespace Owns

section

variable {ι β : Type} [Zero β] {own : ι → β} {used : β → Prop}

theorem used_of_ne_zero (h : Owns own used) {p : ι} (hp : own p ≠ 0) : used (own p) :=
  (h.used_iff _).mpr ⟨hp, p, rfl⟩

theorem ne_of_not_used (h : Owns own used) {b : β} (hb0 : b ≠ 0) (hb : ¬ used b) (p : ι) :
    own p ≠ b :=
  fun heq => hb ((h.used_iff b).mpr ⟨hb0, p, heq⟩)

/-- The same table with another description of the resources taken. -/
theorem congr_used {used' : β → Prop} (h : Owns own used) (heq : ∀ b, used b ↔ used' b) :
    Owns own used' :=
  ⟨h.unique, fun b => (heq b).symm.trans (h.used_iff b)⟩

/-- As many places hold a resource as there are resources taken. -/
theorem ncard_places (h : Owns own used) : {p | own p ≠ 0}.ncard = {b | used b}.ncard := by
  have himage : own '' {p | own p ≠ 0} = {b | used b} := by
    ext b
    constructor
    · rintro ⟨p, hp, rfl⟩
      exact h.used_of_ne_zero hp
    · intro hb
      obtain ⟨hb0, p, rfl⟩ := (h.used_iff b).mp hb
      exact ⟨p, hb0, rfl⟩
  rw [← himage]
  have hinj : Set.InjOn own {p | own p ≠ 0} := fun p hp q _ heq => h.unique p q heq hp
  exact hinj.ncard_image.symm

end

variable {ι β : Type} [DecidableEq ι] [Zero β] {own : ι → β} {used : β → Prop}

/-- A place that takes nothing, or what no place has. -/
theorem unique_update (h : Owns own used) {p : ι} {b : β} (hb : b ≠ 0 → ∀ q, own q ≠ b) (q r : ι)
    (heq : Function.update own p b q = Function.update own p b r)
    (hne : Function.update own p b q ≠ 0) : q = r := by
  by_cases hq : q = p
  · subst hq
    by_cases hr : r = q
    · exact hr.symm
    · rw [Function.update_self] at heq hne
      rw [Function.update_of_ne hr] at heq
      exact absurd heq.symm (hb hne r)
  · rw [Function.update_of_ne hq] at heq hne
    by_cases hr : r = p
    · subst hr
      rw [Function.update_self] at heq
      exact absurd heq (hb (heq ▸ hne) q)
    · rw [Function.update_of_ne hr] at heq
      exact h.unique q r heq hne

theorem assign (h : Owns own used) {p : ι} {b : β} (hp : own p = 0) (hb0 : b ≠ 0)
    (hb : ¬ used b) : Owns (Function.update own p b) (fun c => c = b ∨ used c) where
  unique := h.unique_update fun _ => h.ne_of_not_used hb0 hb
  used_iff := by
    intro c
    constructor
    · rintro (rfl | hc)
      · exact ⟨hb0, p, Function.update_self ..⟩
      · obtain ⟨hc0, q, rfl⟩ := (h.used_iff c).mp hc
        refine ⟨hc0, q, Function.update_of_ne ?_ _ _⟩
        rintro rfl
        exact hc0 hp
    · rintro ⟨hc0, q, hq⟩
      by_cases hqp : q = p
      · subst hqp
        rw [Function.update_self] at hq
        exact Or.inl hq.symm
      · rw [Function.update_of_ne hqp] at hq
        exact Or.inr ((h.used_iff c).mpr ⟨hc0, q, hq⟩)

theorem release (h : Owns own used) {p : ι} (hp : own p ≠ 0) :
    Owns (Function.update own p 0) (fun c => c ≠ own p ∧ used c) where
  unique := h.unique_update fun h0 => absurd rfl h0
  used_iff := by
    intro c
    constructor
    · rintro ⟨hne, hc⟩
      obtain ⟨hc0, q, rfl⟩ := (h.used_iff c).mp hc
      refine ⟨hc0, q, Function.update_of_ne ?_ _ _⟩
      rintro rfl
      exact hne rfl
    · rintro ⟨hc0, q, hq⟩
      by_cases hqp : q = p
      · subst hqp
        rw [Function.update_self] at hq
        exact absurd hq.symm hc0
      · rw [Function.update_of_ne hqp] at hq
        refine ⟨?_, (h.used_iff c).mpr ⟨hc0, q, hq⟩⟩
        rintro rfl
        exact hqp (h.unique q p hq (hq ▸ hc0))

end Owns
