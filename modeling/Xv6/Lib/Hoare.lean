import Xv6.Lib.Prog

/-!
Triples for commands whose assertions look at the state through a view. One
triple says what a command does to the part of the state that is seen; the
rest may change freely, and the command may stop for a reason in `E`.
-/

namespace Prog

variable {σ κ ε α β : Type}

def Triple (view : σ → κ) (E : ε → Prop) (Pre : κ → Prop) (x : Prog σ ε α)
    (Post : α → κ → Prop) : Prop :=
  ∀ s, Pre (view s) → wp x (fun a s' => Post a (view s')) (fun e _ => E e) s

namespace Triple

variable {view : σ → κ} {E : ε → Prop} {Pre : κ → Prop} {x : Prog σ ε α} {Post : α → κ → Prop}

protected theorem pure (a : α) (h : ∀ k, Pre k → Post a k) :
    Triple view E Pre (pure a) Post := fun _ hs => h _ hs

/-- The result leaves what the postcondition says of it. -/
theorem ret {a : α} (h : Pre = Post a) : Triple view E Pre (pure a) Post :=
  .pure a fun _ hk => h ▸ hk

variable {e : ε} {c : Prop}

protected theorem fail (h : ∀ k, Pre k → E e) :
    Triple view E Pre (fail e : Prog σ ε α) Post := fun _ hs => h _ hs

protected theorem bind {M : α → κ → Prop} {f : α → Prog σ ε β} {R : β → κ → Prop}
    (hx : Triple view E Pre x M) (hf : ∀ a, Triple view E (M a) (f a) R) :
    Triple view E Pre (x >>= f) R :=
  fun s hs => wp_seq (hx s hs) (fun a s' hs' => hf a s' hs')

protected theorem mono {Pre' : κ → Prop} {Post' : α → κ → Prop}
    (h : Triple view E Pre' x Post') (hpre : ∀ k, Pre k → Pre' k)
    (hpost : ∀ a k, Post' a k → Post a k) : Triple view E Pre x Post :=
  fun s hs => wp_mono (h s (hpre _ hs)) (fun a s' => hpost a (view s')) (fun _ _ he => he)

protected theorem post {Post' : α → κ → Prop} (h : Triple view E Pre x Post')
    (hpost : ∀ a k, Post' a k → Post a k) : Triple view E Pre x Post :=
  h.mono (fun _ hk => hk) hpost

/-- Stops do not matter. -/
theorem any (h : Triple view E Pre x Post) : Triple view (fun _ => True) Pre x Post :=
  fun s hs => wp_mono (h s hs) (fun _ _ hk => hk) (fun _ _ _ => trivial)

protected theorem ite [Decidable c] {y : Prog σ ε α} (hx : c → Triple view E Pre x Post)
    (hy : ¬ c → Triple view E Pre y Post) : Triple view E Pre (if c then x else y) Post :=
  fun s hs => wp_ite (fun hc => hx hc s hs) (fun hc => hy hc s hs)

protected theorem panicIf [Decidable c] {Q : κ → Prop} (hstop : ∀ k, Pre k → c → E e)
    (hgo : ∀ k, Pre k → ¬ c → Q k) : Triple view E Pre (panicIf c e) (fun _ => Q) :=
  fun _ hs => wp_panicIf.mpr ⟨hstop _ hs, hgo _ hs⟩

/-- A check that may stop the command and changes nothing. -/
theorem check [Decidable c] (he : E e) : Triple view E Pre (Prog.panicIf c e) (fun _ => Pre) :=
  .panicIf (fun _ _ _ => he) (fun _ hk _ => hk)

/-- A command that may be skipped. -/
theorem maybe [Decidable c] {x : Prog σ ε Unit} (hx : Triple view E Pre x (fun _ => Pre)) :
    Triple view E Pre (Prog.when c x) (fun _ => Pre) :=
  fun s hs => wp_when.mpr ⟨fun _ => hx s hs, fun _ => hs⟩

protected theorem when [Decidable c] {x : Prog σ ε Unit} {Q : κ → Prop}
    (hx : c → Triple view E Pre x (fun _ => Q)) (hskip : ∀ k, Pre k → ¬ c → Q k) :
    Triple view E Pre (when c x) (fun _ => Q) :=
  fun s hs => wp_when.mpr ⟨fun hc => hx hc s hs, hskip _ hs⟩

/-- A fact that does not depend on the state may be taken out of the
precondition. -/
theorem of_pure (hc : ∀ k, Pre k → c) (h : c → Triple view E Pre x Post) :
    Triple view E Pre x Post := fun s hs => h (hc _ hs) s hs

protected theorem first {I : κ → Prop} {body : Nat → Prog σ ε (Option α)}
    {Q : Option α → κ → Prop}
    (hbody : ∀ i, Triple view E I (body i) (fun r k =>
      match r with
      | some a => Q (some a) k
      | none => I k))
    (hend : ∀ k, I k → Q none k) (n i : Nat) : Triple view E I (first body n i) Q := by
  intro s hs
  refine wp_first n i (fun _ s' => I (view s')) hs ?_ (fun s' hs' => hend _ hs')
  intro j s' _ _ hs'
  refine wp_mono (hbody j s' hs') ?_ (fun _ _ he => he)
  intro r s'' hr
  cases r <;> exact hr

protected theorem forEach {I : List α → κ → Prop} {body : α → Prog σ ε Unit} (as : List α)
    (hbody : ∀ a rest, Triple view E (I (a :: rest)) (body a) (fun _ => I rest)) :
    Triple view E (I as) (forEach body as) (fun _ => I []) :=
  fun _ hs => wp_forEach as (fun rest s' => I rest (view s')) hs
    (fun a rest s' hs' => hbody a rest s' hs') (fun _ hs' => hs')

/-! ### The whole state -/

protected theorem gets {Pre : σ → Prop} (f : σ → α) :
    Triple id E Pre (gets f : Prog σ ε α) (fun a s => Pre s ∧ a = f s) :=
  fun _ hs => ⟨hs, rfl⟩

protected theorem modify {Pre Q : σ → Prop} {f : σ → σ} (h : ∀ s, Pre s → Q (f s)) :
    Triple id E Pre (modify f : Prog σ ε Unit) (fun _ => Q) := fun s hs => h s hs

/-- The state before a change is kept in the postcondition. -/
theorem modified {Pre : σ → Prop} (f : σ → σ) :
    Triple id E Pre (Prog.modify f : Prog σ ε Unit) (fun _ s' => ∃ s, Pre s ∧ s' = f s) :=
  .modify fun s hs => ⟨s, hs, rfl⟩

end Triple

/-! ### Relations that a command keeps -/

/-- From start to end the state goes by `R`, and stops are in `E`. -/
def Keeps (R : σ → σ → Prop) (E : ε → Prop) (x : Prog σ ε α) : Prop :=
  ∀ s, wp x (fun _ s' => R s s') (fun e _ => E e) s

namespace Keeps

variable {R : σ → σ → Prop} {E : ε → Prop} {x : Prog σ ε α}

protected theorem pure [Std.Refl R] (a : α) : Keeps R E (pure a : Prog σ ε α) :=
  fun s => refl_of R s

protected theorem gets [Std.Refl R] (f : σ → α) : Keeps R E (gets f : Prog σ ε α) :=
  fun s => refl_of R s

protected theorem modify {f : σ → σ} (h : ∀ s, R s (f s)) :
    Keeps R E (modify f : Prog σ ε Unit) := fun s => h s

protected theorem fail {e : ε} (h : E e) : Keeps R E (fail e : Prog σ ε α) := fun _ => h

protected theorem bind [IsTrans σ R] {f : α → Prog σ ε β} (hx : Keeps R E x)
    (hf : ∀ a, Keeps R E (f a)) :
    Keeps R E (x >>= f) := by
  intro s
  refine wp_seq (hx s) ?_
  intro a s' hs'
  exact wp_mono (hf a s') (fun _ s'' hs'' => trans_of R hs' hs'') (fun _ _ he => he)

variable {c : Prop}

protected theorem ite [Decidable c] {y : Prog σ ε α} (hx : Keeps R E x) (hy : Keeps R E y) :
    Keeps R E (if c then x else y) := by
  split
  · exact hx
  · exact hy

protected theorem panicIf [Std.Refl R] [Decidable c] {e : ε} (h : E e) :
    Keeps R E (panicIf c e) := by
  unfold Prog.panicIf
  exact .ite (.fail h) (.pure ())

protected theorem when [Std.Refl R] [Decidable c] {x : Prog σ ε Unit} (hx : Keeps R E x) :
    Keeps R E (when c x) := by
  unfold Prog.when
  exact .ite hx (.pure ())

protected theorem first [Std.Refl R] [IsTrans σ R] {body : Nat → Prog σ ε (Option α)}
    (h : ∀ i, Keeps R E (body i)) (n i : Nat) : Keeps R E (first body n i) := by
  induction n generalizing i with
  | zero => exact .pure none
  | succ n ih =>
    refine .bind (h i) ?_
    intro r
    cases r with
    | some a => exact .pure (some a)
    | none => exact ih (i + 1)

protected theorem forEach [Std.Refl R] [IsTrans σ R] {body : α → Prog σ ε Unit}
    (h : ∀ a, Keeps R E (body a)) (as : List α) : Keeps R E (forEach body as) := by
  induction as with
  | nil => exact .pure ()
  | cons a as ih => exact .bind (h a) fun _ => ih

protected theorem times [Std.Refl R] [IsTrans σ R] {body : Nat → Prog σ ε Unit}
    (h : ∀ i, Keeps R E (body i)) (n : Nat) :
    Keeps R E (times body n) := by
  intro s
  refine wp_times n (fun _ s' => R s s') (refl_of R s) ?_ (fun _ hs' => hs')
  intro j s' _ hs'
  exact wp_mono (h j s') (fun _ _ hs'' => trans_of R hs' hs'') (fun _ _ he => he)

end Keeps

end Prog
