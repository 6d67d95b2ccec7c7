import Xv6.Lib.Exclusive
import Xv6.Lib.Transition

/-!
The sleep lock of `sleeplock.c` under any number of processes. Its spin lock makes
each stretch between `acquire`, `sleep` and `release` one step. A process may call
`acquiresleep` at any time, and gives the lock back the way `brelse`, `bwrite` and
`iunlock` do, after a look with `holdingsleep`.
-/

namespace Xv6.Sleeplock

open Transition

structure Lock where
  locked : Bool
  pid : Int

def holdingsleep (lk : Lock) (pid : Int) : Bool := lk.locked && decide (lk.pid = pid)

inductive Place where
  | out
  /-- In `acquiresleep`, at the test of `lk->locked`, for the first time or after `sleep`. -/
  | test
  | asleep
  /-- At `holdingsleep`. -/
  | check
  | releasesleep
  | panic
deriving DecidableEq

structure Proc where
  place : Place
  holds : Bool

/-- `wakeup` and `kill` make a process that sleeps runnable. -/
def Proc.wakeup (x : Proc) : Proc := if x.place = .asleep then { x with place := .test } else x

structure State (P : Type) where
  lock : Lock
  proc : P → Proc

inductive Act where
  | acquire | release | run | kill

section

variable {P : Type} [DecidableEq P] (pid : P → Int)

def State.setProc (s : State P) (p : P) (x : Proc) : State P :=
  { s with proc := Function.update s.proc p x }

def step (s : State P) (l : P × Act) : Option (State P) :=
  let p := l.1
  let x := s.proc p
  match l.2 with
  | .acquire => if x.place = .out then some (s.setProc p { x with place := .test }) else none
  | .release => if x.place = .out then some (s.setProc p { x with place := .check }) else none
  | .kill => some (s.setProc p x.wakeup)
  | .run => match x.place with
    | .out | .asleep | .panic => none
    | .test => some (if s.lock.locked then s.setProc p { x with place := .asleep }
        else { s.setProc p ⟨.out, true⟩ with lock := ⟨true, pid p⟩ })
    | .check => some (s.setProc p
        { x with place := if holdingsleep s.lock (pid p) then .releasesleep else .panic })
    | .releasesleep => some
        { lock := ⟨false, 0⟩
          proc := Function.update (fun q => (s.proc q).wakeup) p ⟨.out, false⟩ }

/-- After `initsleeplock`. -/
def start : State P := ⟨⟨false, 0⟩, fun _ => ⟨.out, false⟩⟩

def State.holds (s : State P) (p : P) : Bool := (s.proc p).holds

/-- What process `p` and the lock have to do with each other. -/
structure Local (p : P) (lk : Lock) (x : Proc) : Prop where
  pid : x.holds = true → lk.pid = pid p
  asleep : x.place = .asleep → lk.locked = true
  release : x.place = .releasesleep → x.holds = true
  panic : x.place = .panic → x.holds = false

structure Inv (s : State P) : Prop where
  procs : ∀ p, Local pid p s.lock (s.proc p)
  exclusive : Exclusive s.lock.locked s.holds

variable {pid} {s s' : State P} {p : P} {x : Proc}

theorem Proc.wakeup_cases (x : Proc) :
    x.wakeup = { x with place := .test } ∨ x.wakeup = x ∧ x.place ≠ .asleep := by
  unfold Proc.wakeup
  split
  · exact Or.inl rfl
  · next hne => exact Or.inr ⟨rfl, hne⟩

theorem Proc.wakeup_holds (x : Proc) : x.wakeup.holds = x.holds := by
  obtain heq | ⟨heq, -⟩ := x.wakeup_cases <;> rw [heq]

omit [DecidableEq P] in
/-- Nobody who was woken up depends on the lock being held. -/
theorem Local.wakeup {lk lk' : Lock} (h : Local pid p lk x)
    (hpid : x.holds = true → lk'.pid = pid p) : Local pid p lk' x.wakeup := by
  obtain heq | ⟨heq, hne⟩ := x.wakeup_cases
  · rw [heq]
    exact ⟨hpid, by simp, by simp, by simp⟩
  · rw [heq]
    exact ⟨hpid, fun hasleep => absurd hasleep hne, h.release, h.panic⟩

theorem State.holds_setProc : (s.setProc p x).holds = Function.update s.holds p x.holds :=
  Function.comp_update Proc.holds s.proc p x

/-- A step that leaves the lock as it is. -/
theorem Inv.setProc (h : Inv pid s) (hx : x.holds = s.holds p) (hp : Local pid p s.lock x) :
    Inv pid (s.setProc p x) where
  procs := (Function.forall_update_iff s.proc fun q => Local pid q s.lock).mpr
    ⟨hp, fun q _ => h.procs q⟩
  exclusive := by
    rw [State.holds_setProc]
    exact h.exclusive.keep hx

omit [DecidableEq P] in
/-- `holdingsleep` is right about the caller. -/
theorem Inv.holdingsleep_eq (h : Inv pid s) (hinj : Function.Injective pid) (p : P) :
    holdingsleep s.lock (pid p) = s.holds p := by
  rw [holdingsleep, Bool.eq_iff_iff, Bool.and_eq_true, decide_eq_true_iff]
  constructor
  · rintro ⟨hlocked, hpid⟩
    obtain ⟨q, hq⟩ := h.exclusive.locked_iff.mp hlocked
    have hqp : q = p := hinj (((h.procs q).pid hq).symm.trans hpid)
    exact hqp ▸ hq
  · intro hheld
    exact ⟨h.exclusive.locked_of hheld, (h.procs p).pid hheld⟩

theorem inv_step (hinj : Function.Injective pid) {l : P × Act} (h : Inv pid s)
    (hs : step pid s l = some s') : Inv pid s' := by
  obtain ⟨p, a⟩ := l
  have hp := h.procs p
  cases a with
  | acquire | release =>
    obtain ⟨hout, heq⟩ := Option.ite_none_right_eq_some.mp hs
    cases heq
    exact h.setProc rfl ⟨hp.pid, by simp, by simp, by simp⟩
  | kill =>
    cases hs
    exact h.setProc (Proc.wakeup_holds _) (hp.wakeup hp.pid)
  | run =>
    cases hplace : (s.proc p).place with
    | out | asleep | panic => simp [step, hplace] at hs
    | test =>
      have hex := h.exclusive
      cases hlk : s.lock.locked with
      | true =>
        simp only [step, hplace, hlk, if_true, Option.some.injEq] at hs
        subst hs
        exact h.setProc rfl ⟨hp.pid, fun _ => hlk, by simp, by simp⟩
      | false =>
        simp only [step, hplace, hlk, Bool.false_eq_true, if_false, Option.some.injEq] at hs
        subst hs
        rw [hlk] at hex
        constructor
        · refine (Function.forall_update_iff s.proc fun q => Local pid q _).mpr ⟨?_, ?_⟩
          · exact ⟨fun _ => rfl, by simp, by simp, by simp⟩
          · intro q _
            exact { h.procs q with
              pid := fun hq => absurd (hex.not_holds q) (by simp [State.holds, hq])
              asleep := fun _ => rfl }
        · change Exclusive true (s.setProc p ⟨.out, true⟩).holds
          rw [State.holds_setProc]
          exact hex.take p
    | check =>
      simp only [step, hplace, h.holdingsleep_eq hinj, Option.some.injEq] at hs
      subst hs
      refine h.setProc rfl ⟨hp.pid, ?_, ?_, ?_⟩ <;> grind [State.holds]
    | releasesleep =>
      simp only [step, hplace, Option.some.injEq] at hs
      subst hs
      have hheld := hp.release hplace
      constructor
      · refine (Function.forall_update_iff _ fun q => Local pid q _).mpr ⟨?_, ?_⟩
        · exact ⟨by simp, by simp, by simp, by simp⟩
        · intro q hq
          have hnot : s.holds q = false := h.exclusive.other hheld hq
          exact (h.procs q).wakeup fun hholds => absurd hnot (by simp [State.holds, hholds])
      · have hmarks : State.holds ⟨⟨false, 0⟩, Function.update (fun q => (s.proc q).wakeup) p
            ⟨.out, false⟩⟩ = Function.update s.holds p false := by
          funext q
          by_cases hq : q = p <;> simp [State.holds, hq, Proc.wakeup_holds]
        rw [hmarks]
        exact h.exclusive.free hheld

/-- **The sleep lock is exclusive and wakes its waiters.** In every run of processes
with different ids: one process at most holds the lock, `locked` says whether one
does, and `pid` which; `holdingsleep` is right about every caller, so a process that
gives the lock back panics exactly if it does not hold it; and nobody sleeps while
the lock is free. -/
theorem sleeplock_exclusive (pid : P → Int) (hinj : Function.Injective pid)
    (ls : List (P × Act)) (s : State P) (hrun : exec (step pid) start ls = some s) :
    (∀ p q, s.holds p = true → s.holds q = true → p = q) ∧
    (s.lock.locked = true ↔ ∃ p, s.holds p = true) ∧
    (∀ p, s.holds p = true → s.lock.pid = pid p) ∧
    (∀ p, holdingsleep s.lock (pid p) = s.holds p) ∧
    (∀ p, (s.proc p).place = .panic → s.holds p = false) ∧
    (∀ p, (s.proc p).place = .releasesleep → s.holds p = true) ∧
    ∀ p, (s.proc p).place = .asleep → s.lock.locked = true := by
  have hstart : Inv pid start := by
    refine ⟨fun p => ⟨by simp [start], by simp [start], by simp [start], by simp [start]⟩, ?_, ?_⟩
    · simp [start, State.holds]
    · simp [start, State.holds]
  have h : Inv pid s := exec_invariant (Inv pid) hstart (fun _ _ _ => inv_step hinj) hrun
  exact ⟨h.exclusive.unique, h.exclusive.locked_iff, fun p => (h.procs p).pid,
    h.holdingsleep_eq hinj, fun p => (h.procs p).panic, fun p => (h.procs p).release,
    fun p => (h.procs p).asleep⟩

end

/-- The second process sleeps until the first one has given the lock back. -/
def handover : List (Bool × Act) :=
  [(true, .acquire), (true, .run), (false, .acquire), (false, .run), (true, .release),
    (true, .run), (true, .run), (false, .run)]

theorem sleeplock_exclusive_handover : ∃ s : State Bool,
    exec (step fun p => if p then 3 else 4) start handover = some s ∧
    s.holds false = true ∧ s.holds true = false ∧ s.lock.pid = 4 := by
  have hinj : Function.Injective (fun p : Bool => if p then (3 : Int) else 4) := by decide
  obtain ⟨s, hrun, hheld⟩ := Option.map_eq_some_iff.mp (show
    (exec (step fun p => if p then 3 else 4) start handover).map
      (fun s : State Bool => s.holds false) = some true by decide)
  have h := sleeplock_exclusive _ hinj handover s hrun
  refine ⟨s, hrun, hheld, ?_, h.2.2.1 false hheld⟩
  by_contra hother
  have heq := h.1 false true hheld (Bool.of_not_eq_false hother)
  cases heq

end Xv6.Sleeplock
