import Mathlib.Data.List.Basic

/-!
Linked lists: the nodes that come one after the other when a function `next` is
followed. A list that leads back to its first node is a ring, and a ring may be
entered at any of its nodes.
-/

/-- From `a`, `next` leads through the nodes `l` to `e`. -/
def Seg {α : Type} (next : α → α) : α → List α → α → Prop
  | a, [], e => a = e
  | a, x :: l, e => a = x ∧ Seg next (next x) l e

namespace Seg

variable {α : Type} {next next' : α → α} {a b e : α} {l l' : List α}

theorem append_iff : Seg next a (l ++ l') e ↔ ∃ m, Seg next a l m ∧ Seg next m l' e := by
  induction l generalizing a with
  | nil => simp [Seg]
  | cons x l ih => simp [Seg, ih, and_assoc]

/-- What lies in the middle begins with its own node. -/
theorem split (h : Seg next a (l ++ b :: l') e) : Seg next a l b ∧ Seg next (next b) l' e := by
  obtain ⟨m, hl, rfl, hl'⟩ := append_iff.mp h
  exact ⟨hl, hl'⟩

theorem join (hl : Seg next a l b) (hl' : Seg next (next b) l' e) : Seg next a (l ++ b :: l') e :=
  append_iff.mpr ⟨b, hl, rfl, hl'⟩

protected theorem congr (h : Seg next a l e) (hnext : ∀ x ∈ l, next' x = next x) :
    Seg next' a l e := by
  induction l generalizing a with
  | nil => exact h
  | cons x l ih =>
    refine ⟨h.1, ?_⟩
    rw [hnext x List.mem_cons_self]
    exact ih h.2 fun y hy => hnext y (List.mem_cons_of_mem x hy)

/-- A node that is put behind the last one. -/
theorem concat {y : α} (h : Seg next a (l ++ [b]) e) (hnext : ∀ x ∈ l, next' x = next x)
    (hb : next' b = y) (hy : next' y = e) : Seg next' a (l ++ [b, y]) e := by
  obtain ⟨hl, -⟩ := h.split
  refine join (hl.congr hnext) ?_
  rw [hb]
  exact ⟨rfl, hy⟩

/-- A ring, entered at another node. -/
theorem rotate (h : Seg next a (l ++ b :: l') a) : Seg next b (b :: l' ++ l) b := by
  obtain ⟨hl, hl'⟩ := h.split
  exact append_iff.mpr ⟨a, ⟨rfl, hl'⟩, hl⟩

/-- The node after a node of a segment. -/
theorem next_eq (h : Seg next a (l ++ b :: l') e) : next b = (l' ++ [e]).head (by simp) := by
  obtain ⟨-, hl'⟩ := h.split
  cases l' with
  | nil => exact hl'
  | cons x l' => exact hl'.1

end Seg
