import Mathlib.Data.List.FinRange
import Xv6.Param
import Xv6.Lib.Prog

/-!
The process table of `proc.c` and the work on it that is done with
`ptable.lock` held: each definition here is the part of a function between
`acquire` and `release`, or between `acquire` and `sched`.
-/

namespace Xv6.Ptable

open Prog

inductive ProcState where
  | unused | embryo | sleeping | runnable | running | zombie
deriving DecidableEq, Repr

abbrev Slot := Fin NPROC

/-- What a process sleeps on: `wait` sleeps on the process itself, everything
else on the address of some other kernel object. -/
inductive Chan where
  | proc (p : Slot)
  | addr (a : Nat)
deriving DecidableEq, Repr

structure Proc where
  state : ProcState
  pid : Int
  parent : Option Slot
  containerID : Int
  chan : Option Chan
  killed : Bool
deriving DecidableEq, Repr

def Proc.setState (x : Proc) (state : ProcState) : Proc := { x with state := state }

abbrev Table := Slot → Proc

def wakeup1 (chan : Option Chan) (t : Table) : Table := fun q =>
  if (t q).state = .sleeping ∧ (t q).chan = chan then (t q).setState .runnable else t q

/-- The slot that `allocproc` finds. -/
def unusedSlot (t : Table) : Option Slot :=
  (List.finRange NPROC).find? (fun q => (t q).state == .unused)

/-- The locked part of `allocproc`. The parent, the channel and `killed` are
left as the last process of the slot had them. -/
def Proc.alloc (x : Proc) (pid : Int) : Proc :=
  { x with state := .embryo, pid := pid, containerID := 0 }

/-- The last section of `fork`. -/
def Proc.start (x : Proc) : Proc := { x with state := .runnable, containerID := 0 }

/-- One round of the loop of `exit` that passes children to `initproc`. -/
def passChild (initproc p : Slot) (t : Table) (q : Slot) : Table :=
  if (t q).parent = some p then
    let t := set t q { t q with parent := some initproc }
    if (t q).state = .zombie then wakeup1 (some (.proc initproc)) t else t
  else t

/-- The section of `exit`, up to the call of `sched`. -/
def exitTable (initproc p : Slot) (t : Table) : Table :=
  let t := wakeup1 ((t p).parent.map .proc) t
  let t := (List.finRange NPROC).foldl (passChild initproc p) t
  set t p ((t p).setState .zombie)

/-- The child that one pass of the loop of `wait` stops at. -/
def zombieChild (t : Table) (p : Slot) : Option Slot :=
  (List.finRange NPROC).find? (fun q => (t q).parent == some p && (t q).state == .zombie)

def HasKids (t : Table) (p : Slot) : Prop := ∃ q, (t q).parent = some p

instance (t : Table) (p : Slot) : Decidable (HasKids t p) := inferInstanceAs (Decidable (∃ _, _))

/-- What `wait` does to the slot of a child it found. -/
def Proc.reap (x : Proc) : Proc :=
  { x with pid := 0, parent := none, killed := false, state := .unused }

def Proc.kill (x : Proc) : Proc :=
  { x with
    killed := true
    containerID := 0
    state := if x.state = .sleeping then .runnable else x.state }

/-- The slot that the loops of `kill` and of the container calls stop at. -/
def slotOf (t : Table) (pid : Int) : Option Slot :=
  (List.finRange NPROC).find? (fun q => (t q).pid == pid)

def kill (pid : Int) (t : Table) : Table :=
  match slotOf t pid with
  | some q => set t q (t q).kill
  | none => t

def addProcessToContainer (pid containerID : Int) (t : Table) : Table := fun q =>
  if (t q).pid = pid then { t q with containerID := containerID } else t q

def removeProcessFromContainer (pid : Int) (t : Table) : Table := addProcessToContainer pid 0 t

/-- The next process of the container that the loop of `destroyContainer`
comes to from slot `i` on. -/
def nextMember (t : Table) (id : Int) (i : Nat) : Option Slot :=
  (List.finRange NPROC).find? (fun q => decide (i ≤ q.val) && (t q).containerID == id)

/-! ### What the functions do, slot by slot -/

section Lemmas

variable {t : Table} {p q r : Slot}

theorem unusedSlot_state (h : unusedSlot t = some q) : (t q).state = .unused := by
  simpa using List.find?_some h

theorem zombieChild_some (h : zombieChild t p = some q) :
    (t q).parent = some p ∧ (t q).state = .zombie := by
  simpa using List.find?_some h

theorem zombieChild_none (h : zombieChild t p = none) (hq : (t q).parent = some p) :
    (t q).state ≠ .zombie := by
  have := List.find?_eq_none.mp h q (List.mem_finRange q)
  simpa [hq] using this

theorem slotOf_pid {pid : Int} (h : slotOf t pid = some q) : (t q).pid = pid := by
  simpa using List.find?_some h

theorem slotOf_none {pid : Int} (h : slotOf t pid = none) : (t q).pid ≠ pid := by
  simpa using List.find?_eq_none.mp h q (List.mem_finRange q)

theorem nextMember_some {id : Int} {i : Nat} (h : nextMember t id i = some q) :
    i ≤ q.val ∧ (t q).containerID = id := by
  simpa using List.find?_some h

/-- The slots that the loop passed over are not in the container. -/
theorem nextMember_skipped {id : Int} {i : Nat} (hi : i ≤ q.val)
    (h : ∀ r, nextMember t id i = some r → q < r) : (t q).containerID ≠ id := by
  intro hid
  have hq : (decide (i ≤ q.val) && (t q).containerID == id) = true := by simp [hi, hid]
  cases hfind : nextMember t id i with
  | none =>
    have := List.find?_eq_none.mp hfind q (List.mem_finRange q)
    exact this hq
  | some r =>
    have hlt := h r hfind
    obtain ⟨-, as, bs, hsplit, has⟩ := List.find?_eq_some_iff_append.mp hfind
    have hsorted : (as ++ r :: bs).Pairwise (· < ·) := hsplit ▸ List.pairwise_lt_finRange NPROC
    have hmem : q ∈ as ++ r :: bs := hsplit ▸ List.mem_finRange q
    rcases List.mem_append.mp hmem with hmem | hmem
    · have := has q hmem
      rw [hq] at this
      cases this
    · rcases List.mem_cons.mp hmem with rfl | hmem
      · exact absurd hlt (lt_irrefl _)
      · have := (List.pairwise_cons.mp (List.pairwise_append.mp hsorted).2.1).1 q hmem
        exact absurd hlt (lt_asymm this)

/-- The slot keeps its state, or a sleeper becomes runnable. -/
def Rises (t t' : Table) (q : Slot) : Prop :=
  (t' q).state = (t q).state ∨ (t q).state = .sleeping ∧ (t' q).state = .runnable

theorem Rises.state_iff {t t' : Table} (h : Rises t t' q) {st : ProcState} (hs : st ≠ .sleeping)
    (hr : st ≠ .runnable) : (t' q).state = st ↔ (t q).state = st := by
  rcases h with hq | ⟨hq, hq'⟩
  · rw [hq]
  · rw [hq, hq']
    exact iff_of_false (Ne.symm hr) (Ne.symm hs)

theorem Rises.sleeping {t t' : Table} (h : Rises t t' q) (hq : (t' q).state = .sleeping) :
    (t q).state = .sleeping := by
  rcases h with hsame | ⟨-, hrun⟩
  · rwa [← hsame]
  · rw [hq] at hrun
    cases hrun

/-- `t'` is `t` with some sleepers made runnable; parents may differ. -/
structure Woken (t t' : Table) : Prop where
  pid : ∀ q, (t' q).pid = (t q).pid
  containerID : ∀ q, (t' q).containerID = (t q).containerID
  chan : ∀ q, (t' q).chan = (t q).chan
  state : ∀ q, Rises t t' q

theorem Woken.refl (t : Table) : Woken t t :=
  ⟨fun _ => rfl, fun _ => rfl, fun _ => rfl, fun _ => Or.inl rfl⟩

theorem Woken.trans {t t' t'' : Table} (h : Woken t t') (h' : Woken t' t'') : Woken t t'' where
  pid q := (h'.pid q).trans (h.pid q)
  containerID q := (h'.containerID q).trans (h.containerID q)
  chan q := (h'.chan q).trans (h.chan q)
  state q := by
    rcases h.state q with hq | ⟨hq, hq'⟩
    · rcases h'.state q with hq' | ⟨hq', hq''⟩
      · exact Or.inl (hq'.trans hq)
      · exact Or.inr ⟨hq ▸ hq', hq''⟩
    · rcases h'.state q with hq'' | ⟨hq'', -⟩
      · exact Or.inr ⟨hq, hq''.trans hq'⟩
      · rw [hq'] at hq''
        cases hq''

theorem wakeup1_woken (chan : Option Chan) (t : Table) : Woken t (wakeup1 chan t) := by
  refine ⟨?_, ?_, ?_, ?_⟩
  all_goals
    intro q
    try unfold Rises
    unfold wakeup1
    split
  any_goals rfl
  · next h => exact Or.inr ⟨h.1, rfl⟩
  · exact Or.inl rfl

@[simp] theorem wakeup1_parent (chan : Option Chan) (t : Table) (q : Slot) :
    (wakeup1 chan t q).parent = (t q).parent := by
  unfold wakeup1
  split <;> rfl

/-- Some sleepers were made runnable; containers and marks may differ. -/
structure Roused (t t' : Table) : Prop where
  pid : ∀ q, (t' q).pid = (t q).pid
  parent : ∀ q, (t' q).parent = (t q).parent
  chan : ∀ q, (t' q).chan = (t q).chan
  state : ∀ q, Rises t t' q

theorem wakeup1_roused (chan : Option Chan) (t : Table) : Roused t (wakeup1 chan t) :=
  ⟨(wakeup1_woken chan t).pid, wakeup1_parent chan t, (wakeup1_woken chan t).chan,
    (wakeup1_woken chan t).state⟩

/-- Nobody sleeps on the channel any more. -/
theorem wakeup1_chan {chan : Option Chan} (hq : (wakeup1 chan t q).state = .sleeping) :
    (wakeup1 chan t q).chan ≠ chan := by
  unfold wakeup1 at hq ⊢
  split
  · next h => simp [h, Proc.setState] at hq
  · next h =>
      intro hchan
      rw [if_neg h] at hq
      exact h ⟨hq, hchan⟩

/-- What the loop of `exit` over the slots `l` does. -/
structure Passed (initproc p : Slot) (l : List Slot) (t t' : Table) : Prop extends Woken t t' where
  parent : ∀ q, (t' q).parent =
    if q ∈ l ∧ (t q).parent = some p then some initproc else (t q).parent
  awake : (∃ r ∈ l, (t r).parent = some p ∧ (t r).state = .zombie) →
    ∀ q, (t' q).state = .sleeping → (t' q).chan ≠ some (.proc initproc)

theorem passChild_passed (initproc p x : Slot) (t : Table) :
    Passed initproc p [x] t (passChild initproc p t x) := by
  unfold passChild
  by_cases hx : (t x).parent = some p
  · have hset : Woken t (set t x { t x with parent := some initproc }) := by
      refine ⟨?_, ?_, ?_, ?_⟩
      all_goals
        intro q
        by_cases hq : q = x
        · subst hq
          simp [Rises]
        · simp [Rises, set_of_ne _ _ hq]
    have hparent (q : Slot) : (set t x { t x with parent := some initproc } q).parent =
        if q ∈ [x] ∧ (t q).parent = some p then some initproc else (t q).parent := by
      by_cases hq : q = x
      · subst hq
        simp [hx]
      · simp [set_of_ne _ _ hq, hq]
    rw [if_pos hx]
    by_cases hz : (t x).state = .zombie
    · rw [if_pos (by simpa using hz)]
      refine ⟨hset.trans (wakeup1_woken _ _), ?_, ?_⟩
      · intro q
        rw [wakeup1_parent]
        exact hparent q
      · exact fun _ q hq => wakeup1_chan hq
    · rw [if_neg (by simpa using hz)]
      refine ⟨hset, hparent, ?_⟩
      rintro ⟨r, hr, -, hzombie⟩
      rw [List.mem_singleton] at hr
      exact absurd (hr ▸ hzombie) hz
  · rw [if_neg hx]
    refine ⟨Woken.refl t, ?_, ?_⟩
    · intro q
      rw [if_neg]
      rintro ⟨hq, hparent⟩
      rw [List.mem_singleton] at hq
      exact hx (hq ▸ hparent)
    · rintro ⟨r, hr, hparent, -⟩
      rw [List.mem_singleton] at hr
      exact absurd (hr ▸ hparent) hx

theorem foldl_passChild (initproc p : Slot) (l : List Slot) (hl : l.Nodup) (t : Table) :
    Passed initproc p l t (l.foldl (passChild initproc p) t) := by
  induction l generalizing t with
  | nil => exact ⟨Woken.refl t, by simp, by simp⟩
  | cons x l ih =>
    obtain ⟨hx, hl⟩ := List.nodup_cons.mp hl
    have hone := passChild_passed initproc p x t
    have hrest := ih hl (passChild initproc p t x)
    refine ⟨hone.toWoken.trans hrest.toWoken, ?_, ?_⟩
    · intro q
      rw [List.foldl_cons, hrest.parent, hone.parent]
      by_cases hq : q = x
      · subst hq
        simp [hx]
      · simp [hq]
    · rintro ⟨r, hr, hparent, hzombie⟩ q hq
      rcases List.mem_cons.mp hr with rfl | hr
      · have hmid := (hrest.state q).sleeping hq
        rw [List.foldl_cons, hrest.chan]
        exact hone.awake ⟨r, by simp, hparent, hzombie⟩ q hmid
      · refine hrest.awake ⟨r, hr, ?_, ?_⟩ q hq
        · have hne : r ≠ x := fun heq => hx (heq ▸ hr)
          rw [hone.parent, if_neg (by simp [hne])]
          exact hparent
        · exact ((hone.state r).state_iff (by simp) (by simp)).mpr hzombie

/-- What `exit` does to the table. -/
structure Exited (initproc p : Slot) (t t' : Table) : Prop where
  self : (t' p).state = .zombie
  pid : ∀ q, (t' q).pid = (t q).pid
  containerID : ∀ q, (t' q).containerID = (t q).containerID
  chan : ∀ q, (t' q).chan = (t q).chan
  state : ∀ q, q ≠ p → Rises t t' q
  parent : ∀ q, (t' q).parent =
    if (t q).parent = some p then some initproc else (t q).parent
  wakesParent : ∀ r q, (t p).parent = some r → (t' q).state = .sleeping →
    (t' q).chan ≠ some (.proc r)
  wakesInit : ∀ r, (t r).parent = some p → (t r).state = .zombie →
    ∀ q, (t' q).state = .sleeping → (t' q).chan ≠ some (.proc initproc)

theorem Passed.exited {initproc : Slot} {m : Table} (h : Passed initproc p (List.finRange NPROC)
    (wakeup1 ((t p).parent.map .proc) t) m) :
    Exited initproc p t (set m p ((m p).setState .zombie)) := by
  have hwake := wakeup1_woken ((t p).parent.map .proc) t
  have hall := hwake.trans h.toWoken
  have hsame (q : Slot) : set m p ((m p).setState .zombie) q =
      (m q).setState (if q = p then .zombie else (m q).state) := by
    by_cases hq : q = p
    · subst hq
      simp
    · simp [set_of_ne _ _ hq, hq, Proc.setState]
  have hsleep {q : Slot} (hq : (set m p ((m p).setState .zombie) q).state = .sleeping) :
      (m q).state = .sleeping := by
    rw [hsame] at hq
    by_cases hqp : q = p
    · simp [hqp, Proc.setState] at hq
    · simpa [hqp, Proc.setState] using hq
  refine ⟨?_, ?_, ?_, ?_, ?_, ?_, ?_, ?_⟩
  · rw [set_self]
    rfl
  · intro q
    rw [hsame]
    exact hall.pid q
  · intro q
    rw [hsame]
    exact hall.containerID q
  · intro q
    rw [hsame]
    exact hall.chan q
  · intro q hq
    have hrise := hall.state q
    unfold Rises at hrise ⊢
    rw [hsame]
    simpa [hq, Proc.setState] using hrise
  · intro q
    rw [hsame]
    simpa [Proc.setState] using h.parent q
  · intro r q hr hq
    have hchan := wakeup1_chan ((h.state q).sleeping (hsleep hq))
    rw [hsame]
    change (m q).chan ≠ _
    rw [h.chan]
    simpa [hr] using hchan
  · intro r hparent hzombie q hq
    rw [hsame]
    refine h.awake ⟨r, List.mem_finRange r, ?_, ?_⟩ q (hsleep hq)
    · rw [wakeup1_parent]
      exact hparent
    · exact ((hwake.state r).state_iff (by simp) (by simp)).mpr hzombie

theorem exitTable_exited (initproc p : Slot) (t : Table) :
    Exited initproc p t (exitTable initproc p t) :=
  (foldl_passChild initproc p (List.finRange NPROC) (List.nodup_finRange NPROC) _).exited

/-- `kill` changes one slot at most, and there `killed`, the container and
possibly a sleeping state. -/
theorem kill_changes (pid : Int) (t : Table) : Roused t (kill pid t) ∧
    ∀ q, (kill pid t q).containerID = (t q).containerID ∨ (kill pid t q).containerID = 0 := by
  unfold kill
  cases slotOf t pid with
  | some r =>
    have hkill : (t r).kill.state = (t r).state ∨
        (t r).state = .sleeping ∧ (t r).kill.state = .runnable := by
      by_cases hs : (t r).state = .sleeping
      · exact Or.inr ⟨hs, if_pos hs⟩
      · exact Or.inl (if_neg hs)
    refine ⟨⟨?_, ?_, ?_, ?_⟩, ?_⟩
    · exact forall_set (C := fun q (x : Proc) => x.pid = (t q).pid) rfl fun _ _ => rfl
    · exact forall_set (C := fun q (x : Proc) => x.parent = (t q).parent) rfl fun _ _ => rfl
    · exact forall_set (C := fun q (x : Proc) => x.chan = (t q).chan) rfl fun _ _ => rfl
    · exact forall_set (C := fun q (x : Proc) => x.state = (t q).state ∨
        (t q).state = .sleeping ∧ x.state = .runnable) hkill fun _ _ => Or.inl rfl
    · exact forall_set (C := fun q (x : Proc) => x.containerID = (t q).containerID ∨
        x.containerID = 0) (Or.inr rfl) fun _ _ => Or.inl rfl
  | none =>
    exact ⟨⟨fun _ => rfl, fun _ => rfl, fun _ => rfl, fun _ => Or.inl rfl⟩, fun _ => Or.inl rfl⟩

theorem kill_roused (pid : Int) (t : Table) : Roused t (kill pid t) := (kill_changes pid t).1

section AddProcess

variable (pid id : Int) (t : Table) (q : Slot)

theorem addProcessToContainer_eq : addProcessToContainer pid id t q =
    { t q with containerID := if (t q).pid = pid then id else (t q).containerID } := by
  unfold addProcessToContainer
  split <;> rfl

theorem addProcessToContainer_state : (addProcessToContainer pid id t q).state = (t q).state := by
  rw [addProcessToContainer_eq]

theorem addProcessToContainer_roused : Roused t (addProcessToContainer pid id t) := by
  refine ⟨?_, ?_, ?_, fun q => Or.inl (addProcessToContainer_state pid id t q)⟩
  all_goals
    intro q
    rw [addProcessToContainer_eq]

end AddProcess

end Lemmas

end Xv6.Ptable
