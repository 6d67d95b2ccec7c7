import Mathlib.Logic.Function.Basic

/-!
Commands that read and change a state and may stop with an error, with rules
of pre- and postconditions for them. The state at which a command stopped is
kept, so a postcondition can also speak of a run that did not finish.
-/

/-- From a state, a command ends in a state with a result or with an error. -/
def Prog (σ ε α : Type) : Type := σ → Except ε α × σ

namespace Prog

variable {σ ε α β : Type}

instance : Monad (Prog σ ε) where
  pure a := fun s => (.ok a, s)
  bind x f := fun s =>
    match x s with
    | (.ok a, s') => f a s'
    | (.error e, s') => (.error e, s')

/-- What holds at the end of a run can be evaluated. -/
instance (priority := low) decidableRuns {ρ : Type} [DecidableEq ρ] (x : ρ × σ) (r : ρ)
    (p : σ → Prop) [DecidablePred p] : Decidable (∃ s, x = (r, s) ∧ p s) :=
  decidable_of_iff (x.1 = r ∧ p x.2)
    ⟨fun h => ⟨x.2, Prod.ext h.1 rfl, h.2⟩, by rintro ⟨s, rfl, h⟩; exact ⟨rfl, h⟩⟩

theorem bind_assoc {γ : Type} (x : Prog σ ε α) (f : α → Prog σ ε β) (g : β → Prog σ ε γ) :
    x >>= f >>= g = x >>= fun a => f a >>= g := by
  funext s
  change (match (match x s with
    | (.ok a, s') => f a s'
    | (.error e, s') => (.error e, s')) with
    | (.ok b, s') => g b s'
    | (.error e, s') => (.error e, s')) = match x s with
    | (.ok a, s') => (f a >>= g) s'
    | (.error e, s') => (.error e, s')
  rcases x s with ⟨_ | a, s'⟩ <;> rfl

variable {s' : σ} {a : α} {e : ε} {ι : Type} {c : Prop}

/-- A first command that ends with a result. -/
theorem bind_ok {x : Prog σ ε α} {f : α → Prog σ ε β} {s : σ} (h : x s = (.ok a, s')) :
    (x >>= f) s = f a s' := by
  change (match x s with
    | (.ok a, s') => f a s'
    | (.error e, s') => (.error e, s')) = _
  rw [h]

theorem bind_error {x : Prog σ ε α} {f : α → Prog σ ε β} {s : σ} (h : x s = (.error e, s')) :
    (x >>= f) s = (.error e, s') := by
  change (match x s with
    | (.ok a, s') => f a s'
    | (.error e, s') => (.error e, s')) = _
  rw [h]

theorem pure_bind (a : α) (f : α → Prog σ ε β) : pure a >>= f = f a := rfl

/-- Read the state through `f`. -/
def gets (f : σ → α) : Prog σ ε α := fun s => (.ok (f s), s)

def modify (f : σ → σ) : Prog σ ε Unit := fun s => (.ok (), f s)

def fail (e : ε) : Prog σ ε α := fun s => (.error e, s)

/-- The table `f` with `b` stored at `a`: `Function.update` on a type that does
not depend on the index, so that an evaluation meets no cast. -/
def set {ι β : Type} [DecidableEq ι] (f : ι → β) (a : ι) (b : β) : ι → β :=
  fun x => if x = a then b else f x

theorem set_eq_update {β : Type} [DecidableEq ι] (f : ι → β) (a : ι) (b : β) :
    set f a b = Function.update f a b := by
  funext x
  by_cases h : x = a
  · subst h; simp [set]
  · simp [set, h]

@[simp] theorem set_self {β : Type} [DecidableEq ι] (f : ι → β) (a : ι) (b : β) :
    set f a b a = b := if_pos rfl

@[simp] theorem set_set {β : Type} [DecidableEq ι] (f : ι → β) (a : ι) (b c : β) :
    set (set f a b) a c = set f a c := by
  simp [set_eq_update]

@[simp] theorem set_eta {β : Type} [DecidableEq ι] (f : ι → β) (a : ι) : set f a (f a) = f := by
  simp [set_eq_update]

theorem set_of_ne {β : Type} [DecidableEq ι] (f : ι → β) {a x : ι} (b : β) (h : x ≠ a) :
    set f a b x = f x := if_neg h

/-- What holds of the stored value and of the other ones holds of the new table. -/
theorem forall_set {β : Type} [DecidableEq ι] {C : ι → β → Prop} {f : ι → β} {a : ι} {b : β}
    (hself : C a b) (hother : ∀ x, x ≠ a → C x (f x)) (x : ι) : C x (set f a b x) := by
  by_cases h : x = a
  · subst h
    rwa [set_self]
  · rw [set_of_ne _ _ h]
    exact hother x h

theorem set_comm {β : Type} [DecidableEq ι] (f : ι → β) {a b : ι} (x y : β) (h : a ≠ b) :
    set (set f a x) b y = set (set f b y) a x := by
  simp only [set_eq_update]
  exact Function.update_comm h x y f

/-- `if (c) x;` -/
def when (c : Prop) [Decidable c] (x : Prog σ ε Unit) : Prog σ ε Unit :=
  if c then x else pure ()

def panicIf (c : Prop) [Decidable c] (e : ε) : Prog σ ε Unit :=
  if c then fail e else pure ()

/-- Run from `s`, the command ends with a result and a state in `Q`, or stops
with an error and a state in `E`. -/
def wp (x : Prog σ ε α) (Q : α → σ → Prop) (E : ε → σ → Prop) (s : σ) : Prop :=
  match x s with
  | (.ok a, s') => Q a s'
  | (.error e, s') => E e s'

variable {x : Prog σ ε α} {f : α → Prog σ ε β} {s : σ}
  {Q Q' : α → σ → Prop} {R : β → σ → Prop} {E E' : ε → σ → Prop}

@[simp] theorem wp_pure (a : α) : wp (pure a : Prog σ ε α) Q E s ↔ Q a s := Iff.rfl

@[simp] theorem wp_gets (g : σ → α) : wp (gets g : Prog σ ε α) Q E s ↔ Q (g s) s := Iff.rfl

@[simp] theorem wp_modify (g : σ → σ) {Q : Unit → σ → Prop} :
    wp (modify g : Prog σ ε Unit) Q E s ↔ Q () (g s) := Iff.rfl

@[simp] theorem wp_fail (e : ε) : wp (fail e : Prog σ ε α) Q E s ↔ E e s := Iff.rfl

@[simp] theorem wp_bind :
    wp (x >>= f) R E s ↔ wp x (fun a s' => wp (f a) R E s') E s := by
  change (match (match x s with
    | (.ok a, s') => f a s'
    | (.error e, s') => (.error e, s')) with
    | (.ok b, s') => R b s'
    | (.error e, s') => E e s') ↔ _
  unfold wp
  split
  · split <;> simp_all
  · split <;> simp_all

theorem wp_panicIf [Decidable c] {Q : Unit → σ → Prop} :
    wp (panicIf c e : Prog σ ε Unit) Q E s ↔ (c → E e s) ∧ (¬ c → Q () s) := by
  unfold panicIf
  split <;> simp [*]

theorem wp_when [Decidable c] {x : Prog σ ε Unit} {Q : Unit → σ → Prop} :
    wp (when c x) Q E s ↔ (c → wp x Q E s) ∧ (¬ c → Q () s) := by
  unfold when
  split <;> simp [*]

theorem wp_ite [Decidable c] {x y : Prog σ ε α} (hpos : c → wp x Q E s) (hneg : ¬ c → wp y Q E s) :
    wp (if c then x else y) Q E s := by
  split
  · exact hpos ‹_›
  · exact hneg ‹_›

theorem wp_of_run (hrun : x s = (.ok a, s')) (hQ : Q a s') : wp x Q E s := by
  unfold wp
  rw [hrun]
  exact hQ

theorem wp_mono (h : wp x Q E s) (hQ : ∀ a s', Q a s' → Q' a s')
    (hE : ∀ e s', E e s' → E' e s') : wp x Q' E' s := by
  unfold wp at h ⊢
  split
  · next heq => rw [heq] at h; exact hQ _ _ h
  · next heq => rw [heq] at h; exact hE _ _ h

theorem wp_mono_total (h : wp x Q (fun _ _ => False) s) (hQ : ∀ a s', Q a s' → Q' a s') :
    wp x Q' E s :=
  wp_mono h hQ (fun _ _ hfalse => hfalse.elim)

/-- The rule of sequencing, with the first command's postcondition given. -/
theorem wp_seq (hx : wp x Q E s) (hf : ∀ a s', Q a s' → wp (f a) R E s') :
    wp (x >>= f) R E s :=
  wp_bind.mpr (wp_mono hx hf (fun _ _ he => he))

/-- Sequencing after a command that may stop for fewer reasons. -/
theorem wp_call (hx : wp x Q E' s) (hE : ∀ e s', E' e s' → E e s')
    (hf : ∀ a s', Q a s' → wp (f a) R E s') : wp (x >>= f) R E s :=
  wp_seq (wp_mono hx (fun _ _ hq => hq) hE) hf

/-- Sequencing after a command that always ends with a result. -/
theorem wp_total (hx : wp x Q (fun _ _ => False) s)
    (hf : ∀ a s', Q a s' → wp (f a) R E s') : wp (x >>= f) R E s :=
  wp_bind.mpr (wp_mono_total hx hf)

/-- Sequencing after a command that never ends with a result. -/
theorem wp_stops (hx : wp x (fun _ _ => False) E' s) (hE : ∀ e s', E' e s' → E e s') :
    wp (x >>= f) R E s :=
  wp_call hx hE (fun _ _ hfalse => hfalse.elim)

/-- What a run that ended with a result satisfies. -/
theorem of_wp_ok (h : wp x Q E s) (hrun : x s = (.ok a, s')) : Q a s' := by
  unfold wp at h
  rw [hrun] at h
  exact h

theorem of_wp_error (h : wp x Q E s) (hrun : x s = (.error e, s')) : E e s' := by
  unfold wp at h
  rw [hrun] at h
  exact h

/-- A command that always ends with a result does so in a state of the
postcondition. -/
theorem exists_of_wp (h : wp x Q (fun _ _ => False) s) : ∃ a s', x s = (.ok a, s') ∧ Q a s' := by
  cases hrun : x s with
  | mk r s' =>
    cases r with
    | ok a => exact ⟨a, s', rfl, of_wp_ok h hrun⟩
    | error e => exact (of_wp_error h hrun).elim

/-! ### Loops -/

/-- `for (j = i; j < i + n; j++)` with a body that may return from the loop. -/
def first (body : Nat → Prog σ ε (Option α)) : Nat → Nat → Prog σ ε (Option α)
  | 0, _ => pure none
  | n + 1, i => do
    match ← body i with
    | some a => pure (some a)
    | none => first body n (i + 1)

/-- `for (j = 0; j < n; j++)`. -/
def times (body : Nat → Prog σ ε Unit) : Nat → Prog σ ε Unit
  | 0 => pure ()
  | n + 1 => do
    times body n
    body n

/-- The command for each element of a list, in order. -/
def forEach (body : α → Prog σ ε Unit) : List α → Prog σ ε Unit
  | [] => pure ()
  | a :: as => do
    body a
    forEach body as

/-- An invariant that speaks of the elements still to come. -/
theorem wp_forEach {body : α → Prog σ ε Unit} {Q : Unit → σ → Prop} (as : List α)
    (I : List α → σ → Prop) (h0 : I as s)
    (hbody : ∀ a rest s', I (a :: rest) s' → wp (body a) (fun _ s'' => I rest s'') E s')
    (hend : ∀ s', I [] s' → Q () s') :
    wp (forEach body as) Q E s := by
  induction as generalizing s with
  | nil => exact hend s h0
  | cons a as ih => exact wp_seq (hbody a as s h0) (fun _ s' hs' => ih hs')

/-- An invariant that each round without a result carries to the next index. -/
theorem wp_first {body : Nat → Prog σ ε (Option α)} {Q : Option α → σ → Prop} (n i : Nat)
    (I : Nat → σ → Prop) (h0 : I i s)
    (hbody : ∀ j s', i ≤ j → j < i + n → I j s' → wp (body j) (fun r s'' =>
      match r with
      | some a => Q (some a) s''
      | none => I (j + 1) s'') E s')
    (hend : ∀ s', I (i + n) s' → Q none s') :
    wp (first body n i) Q E s := by
  induction n generalizing i s with
  | zero => exact hend s h0
  | succ n ih =>
    refine wp_seq (hbody i s (Nat.le_refl _) (by omega) h0) ?_
    intro r s' hr
    cases r with
    | some a => exact hr
    | none =>
      refine ih (i + 1) hr ?_ ?_
      · intro j s'' hle hlt hj
        exact hbody j s'' (by omega) (by omega) hj
      · intro s'' hs''
        exact hend s'' (by rwa [show i + (n + 1) = i + 1 + n by omega])

theorem wp_times {body : Nat → Prog σ ε Unit} {Q : Unit → σ → Prop} (n : Nat)
    (I : Nat → σ → Prop) (h0 : I 0 s)
    (hbody : ∀ j s', j < n → I j s' → wp (body j) (fun _ s'' => I (j + 1) s'') E s')
    (hend : ∀ s', I n s' → Q () s') :
    wp (times body n) Q E s := by
  have hloop (k : Nat) (hk : k ≤ n) : wp (times body k) (fun _ s' => I k s') E s := by
    induction k with
    | zero => exact h0
    | succ k ih => exact wp_seq (ih (by omega)) (fun _ s' hs' => hbody k s' (by omega) hs')
  exact wp_mono (hloop n (Nat.le_refl _)) (fun _ s' hs' => hend s' hs') (fun _ _ he => he)

-- a loop of a fixed number of rounds is not to be unrolled when a goal is compared
attribute [irreducible] times

end Prog
