import Mathlib

/-!
Runs of a partial step function, and counting over finitely many processes.
A label names who acts and what it does, so a run is a list of labels; a step
that is not enabled has no successor.
-/

namespace Transition

/-! The runs that are written out have at most three threads. -/

instance neZero_one : NeZero 1 := ⟨Nat.one_ne_zero⟩

instance neZero_two : NeZero 2 := ⟨by decide⟩

instance neZero_three : NeZero 3 := ⟨by decide⟩

/-- What holds of the end of a run can be evaluated. -/
instance (priority := low) decidableEnds {α : Type*} (x : Option α) (p : α → Prop)
    [DecidablePred p] : Decidable (∃ a, x = some a ∧ p a) :=
  decidable_of_iff (x.any (fun a => decide (p a)) = true) (by cases x <;> simp)

section Runs

variable {σ ℓ : Type*} (step : σ → ℓ → Option σ)

/-- The state after a run, if every step of it is enabled. -/
def exec : σ → List ℓ → Option σ
  | s, [] => some s
  | s, l :: ls => (step s l).bind (fun s' => exec s' ls)

/-- Every step of a run meets `C` in the state it is taken from. -/
def AllSteps (C : σ → ℓ → Prop) : σ → List ℓ → Prop
  | _, [] => True
  | s, l :: ls => C s l ∧
      match step s l with
      | none => True
      | some s' => AllSteps C s' ls

instance decidableAllSteps (C : σ → ℓ → Prop) [∀ s l, Decidable (C s l)] :
    (s : σ) → (ls : List ℓ) → Decidable (AllSteps step C s ls)
  | _, [] => isTrue trivial
  | s, l :: ls =>
    have : Decidable (match step s l with
        | none => True
        | some s' => AllSteps step C s' ls) :=
      match step s l with
      | none => isTrue trivial
      | some s' => decidableAllSteps C s' ls
    inferInstanceAs (Decidable (_ ∧ _))

variable {step}

theorem exec_append (s : σ) (ls ms : List ℓ) :
    exec step s (ls ++ ms) = (exec step s ls).bind (fun s' => exec step s' ms) := by
  induction ls generalizing s with
  | nil => rfl
  | cons l ls ih =>
    simp only [List.cons_append, exec]
    cases step s l with
    | none => rfl
    | some s' => exact ih s'

variable {s s' s₀ : σ} {ls : List ℓ} {C : σ → ℓ → Prop}

theorem exec_append_some {ms : List ℓ} : exec step s (ls ++ ms) = some s' ↔
      ∃ m, exec step s ls = some m ∧ exec step m ms = some s' := by
  rw [exec_append]
  exact Option.bind_eq_some_iff

theorem exec_cons_some {l : ℓ} : exec step s (l :: ls) = some s' ↔
      ∃ m, step s l = some m ∧ exec step m ls = some s' :=
  Option.bind_eq_some_iff

theorem exec_concat_some {l : ℓ} : exec step s (ls ++ [l]) = some s' ↔
      ∃ m, exec step s ls = some m ∧ step m l = some s' := by
  rw [exec_append_some]
  simp [exec]

/-- A property of a state and the run that led to it holds of every run if it
holds initially and each step extends it. -/
theorem exec_history (I : List ℓ → σ → Prop) (h0 : I [] s₀)
    (hstep : ∀ tr s l s', I tr s → step s l = some s' → I (tr ++ [l]) s')
    (hrun : exec step s₀ ls = some s) : I ls s := by
  induction ls using List.reverseRecOn generalizing s with
  | nil =>
    cases hrun
    exact h0
  | append_singleton ls l ih =>
    obtain ⟨m, hm, hl⟩ := exec_concat_some.mp hrun
    exact hstep ls m l s (ih hm) hl

theorem exec_invariant (I : σ → Prop) (h0 : I s₀)
    (hstep : ∀ s l s', I s → step s l = some s' → I s') (hrun : exec step s₀ ls = some s) : I s :=
  exec_history (fun _ => I) h0 (fun _ => hstep) hrun

theorem allSteps_append {m : σ} {ms : List ℓ} (hm : exec step s ls = some m) :
    AllSteps step C s (ls ++ ms) ↔ AllSteps step C s ls ∧ AllSteps step C m ms := by
  induction ls generalizing s with
  | nil =>
    cases hm
    simp [AllSteps]
  | cons l ls ih =>
    obtain ⟨s', hs', hrest⟩ := exec_cons_some.mp hm
    simp only [List.cons_append, AllSteps, hs']
    rw [ih hrest, and_assoc]

/-- The invariant rule for runs whose steps all meet a condition. -/
theorem exec_invariant_of_allSteps (I : σ → Prop) (h0 : I s₀)
    (hstep : ∀ s l s', I s → C s l → step s l = some s' → I s') (hC : AllSteps step C s₀ ls)
    (hrun : exec step s₀ ls = some s) : I s := by
  induction ls generalizing s₀ with
  | nil =>
    cases hrun
    exact h0
  | cons l ls ih =>
    obtain ⟨s', hs', hrest⟩ := exec_cons_some.mp hrun
    obtain ⟨hl, hls⟩ := hC
    rw [hs'] at hls
    exact ih (hstep s₀ l s' h0 hl hs') hls hrest

/-- A condition on the labels only. -/
theorem allSteps_of_forall {C : ℓ → Prop} (h : ∀ l ∈ ls, C l) (s : σ) :
    AllSteps step (fun _ l => C l) s ls := by
  induction ls generalizing s with
  | nil => trivial
  | cons l ls ih =>
    refine ⟨h l List.mem_cons_self, ?_⟩
    split
    · trivial
    · exact ih (fun m hm => h m (List.mem_cons_of_mem l hm)) _

/-- An invariant that implies `C` at every enabled step gives `C` along a run. -/
theorem allSteps_of_invariant (I : σ → Prop) (h0 : I s₀)
    (hstep : ∀ s l s', I s → step s l = some s' → I s' ∧ C s l) (hrun : exec step s₀ ls = some s) :
    AllSteps step C s₀ ls := by
  induction ls generalizing s₀ with
  | nil => trivial
  | cons l ls ih =>
    obtain ⟨s', hs', hrest⟩ := exec_cons_some.mp hrun
    obtain ⟨hI, hC⟩ := hstep s₀ l s' h0 hs'
    refine ⟨hC, ?_⟩
    rw [hs']
    exact ih hI hrest

end Runs

section Counting

variable {P α : Type*} [Fintype P] [DecidableEq P]

/-- How many processes are in a state that satisfies `c`. -/
def count (c : α → Prop) [DecidablePred c] (f : P → α) : Nat :=
  (Finset.univ.filter (fun p => c (f p))).card

variable {c : α → Prop} [DecidablePred c] {f g : P → α}

omit [DecidableEq P] in
theorem count_congr (h : ∀ p, c (f p) ↔ c (g p)) : count c f = count c g := by
  unfold count
  congr 1
  apply Finset.filter_congr
  intro p _
  exact h p

variable {p : P} {a : α}

omit [DecidableEq P] in
theorem count_pos_of (h : c (f p)) : 0 < count c f :=
  Finset.card_pos.mpr ⟨p, by simpa using h⟩

omit [DecidableEq P] in
theorem not_of_count_eq_zero (h : count c f = 0) (p : P) : ¬ c (f p) := by
  intro hp
  have := count_pos_of hp
  omega

/-- Moving one process changes the count by what that process contributes. -/
theorem count_update (p : P) (a : α) :
    count c (Function.update f p a) + (if c (f p) then 1 else 0) =
      count c f + (if c a then 1 else 0) := by
  have hsplit (g : P → α) : count c g =
      ((Finset.univ.erase p).filter (fun q => c (g q))).card + (if c (g p) then 1 else 0) := by
    unfold count
    rw [← Finset.insert_erase (Finset.mem_univ p), Finset.filter_insert,
      Finset.erase_insert_eq_erase]
    by_cases hp : c (g p)
    · simp [hp, Finset.card_insert_of_notMem]
    · simp [hp]
  have hrest : (Finset.univ.erase p).filter (fun q => c (Function.update f p a q)) =
      (Finset.univ.erase p).filter (fun q => c (f q)) := by
    apply Finset.filter_congr
    intro q hq
    rw [Function.update_of_ne (Finset.ne_of_mem_erase hq)]
  rw [hsplit f, hsplit (Function.update f p a), hrest, Function.update_self]
  omega

theorem count_update_enter (hp : ¬ c (f p)) (ha : c a) :
    count c (Function.update f p a) = count c f + 1 := by
  have h := count_update (c := c) (f := f) p a
  rw [if_neg hp, if_pos ha] at h
  omega

theorem count_update_leave (hp : c (f p)) (ha : ¬ c a) :
    count c (Function.update f p a) + 1 = count c f := by
  have h := count_update (c := c) (f := f) p a
  rw [if_pos hp, if_neg ha] at h
  omega

theorem count_update_same (h : c (f p) ↔ c a) : count c (Function.update f p a) = count c f := by
  have hcount := count_update (c := c) (f := f) p a
  rw [if_congr h rfl rfl] at hcount
  omega

end Counting

end Transition
