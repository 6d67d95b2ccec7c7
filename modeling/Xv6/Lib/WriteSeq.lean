import Mathlib

/-!
Sequences of atomic writes to a store, applied in issue order. A crash after
some prefix of a sequence leaves the store that prefix produces, so the lemmas
say what a prefix can and cannot have changed.
-/

namespace WriteSeq

variable {α β : Type*}

/-- The writes of a loop over `0, …, k - 1`. -/
def loopWrites (key : Nat → α) (val : Nat → β) (k : Nat) : List (α × β) :=
  (List.range k).map (fun t => (key t, val t))

@[simp] theorem loopWrites_length (key : Nat → α) (val : Nat → β) (k : Nat) :
    (loopWrites key val k).length = k := by
  simp [loopWrites]

theorem loopWrites_succ (key : Nat → α) (val : Nat → β) (k : Nat) :
    loopWrites key val (k + 1) = loopWrites key val k ++ [(key k, val k)] := by
  simp [loopWrites, List.range_succ]

variable {k : Nat} {a : α}

theorem loopWrites_congr {key : Nat → α} {val val' : Nat → β} (h : ∀ t < k, val t = val' t) :
    loopWrites key val k = loopWrites key val' k := by
  apply List.map_congr_left
  intro t ht
  rw [h t (List.mem_range.mp ht)]

theorem mem_loopWrites {key : Nat → α} {val : Nat → β} {w : α × β} :
    w ∈ loopWrites key val k ↔ ∃ t < k, (key t, val t) = w := by
  simp [loopWrites]

theorem take_loopWrites (key : Nat → α) (val : Nat → β) (k j : Nat) :
    (loopWrites key val k).take j = loopWrites key val (min j k) := by
  rw [loopWrites, ← List.map_take, List.take_range, loopWrites]

variable [DecidableEq α]

/-- The store after the writes of a sequence, in order. -/
def applyWrites (d : α → β) (ws : List (α × β)) : α → β :=
  ws.foldl (fun d w => Function.update d w.1 w.2) d

@[simp] theorem applyWrites_nil (d : α → β) : applyWrites d [] = d := rfl

theorem applyWrites_append (d : α → β) (ws vs : List (α × β)) :
    applyWrites d (ws ++ vs) = applyWrites (applyWrites d ws) vs := by
  simp [applyWrites, List.foldl_append]

section

variable (d : α → β) (ws : List (α × β))

theorem applyWrites_concat (w : α × β) :
    applyWrites d (ws ++ [w]) = Function.update (applyWrites d ws) w.1 w.2 := by
  simp [applyWrites, List.foldl_append]

/-- An address holds its old value or the value of some write to it. -/
theorem applyWrites_eq_or_mem (a : α) :
    applyWrites d ws a = d a ∨ (a, applyWrites d ws a) ∈ ws := by
  induction ws using List.reverseRecOn with
  | nil => exact Or.inl rfl
  | append_singleton ws w ih =>
    rw [applyWrites_concat]
    by_cases ha : a = w.1
    · subst ha
      right
      simp
    · rw [Function.update_of_ne ha]
      rcases ih with hold | hmem
      · exact Or.inl hold
      · exact Or.inr (by simp [hmem])

theorem applyWrites_of_forall_ne (h : ∀ w ∈ ws, w.1 ≠ a) : applyWrites d ws a = d a := by
  rcases applyWrites_eq_or_mem d ws a with hold | hmem
  · exact hold
  · exact absurd rfl (h _ hmem)

/-- If all writes to `a` carry the same value and there is one, `a` holds it. -/
theorem applyWrites_of_mem {v : β} (hmem : (a, v) ∈ ws) (hval : ∀ w ∈ ws, w.1 = a → w.2 = v) :
    applyWrites d ws a = v := by
  induction ws using List.reverseRecOn with
  | nil => simp at hmem
  | append_singleton ws w ih =>
    rw [applyWrites_concat]
    by_cases ha : a = w.1
    · rw [ha, Function.update_self]
      exact hval w (by simp) ha.symm
    · rw [Function.update_of_ne ha]
      apply ih
      · rcases List.mem_append.mp hmem with hold | hnew
        · exact hold
        · simp only [List.mem_singleton] at hnew
          exact absurd (congrArg Prod.fst hnew) ha
      · intro u hu hua
        exact hval u (by simp [hu]) hua

end

theorem applyWrites_loop_of_ne (d : α → β) (key : Nat → α) (val : Nat → β)
    (h : ∀ t < k, key t ≠ a) :
    applyWrites d (loopWrites key val k) a = d a := by
  apply applyWrites_of_forall_ne
  intro w hw
  obtain ⟨t, ht, rfl⟩ := mem_loopWrites.mp hw
  exact h t ht

/-- A loop over distinct addresses leaves each one holding its own value. -/
theorem applyWrites_loop_of_lt (d : α → β) (key : Nat → α) (val : Nat → β) {t : Nat} (ht : t < k)
    (hinj : ∀ i < k, ∀ j < k, key i = key j → i = j) :
    applyWrites d (loopWrites key val k) (key t) = val t := by
  apply applyWrites_of_mem
  · exact mem_loopWrites.mpr ⟨t, ht, rfl⟩
  · intro w hw hkey
    obtain ⟨i, hi, rfl⟩ := mem_loopWrites.mp hw
    rw [hinj i hi t ht hkey]

end WriteSeq
