import Xv6.Lib.Transition

/-!
The clock: the timer interrupt of `trap.c` counts `ticks` and wakes up the processes
that wait in `sys_sleep`. A step is what is done in one go under `tickslock`; `kill`
does not take that lock, so it may come between the test of `killed` and `sleep`.
`time` counts the ticks without an end, where `ticks` starts again after 2 ^ 32.
-/

namespace Xv6.Timer

open Transition

/-- The variables of a call of `sys_sleep`, and when it was made. -/
structure Call where
  n : UInt32
  ticks0 : UInt32
  began : Nat

inductive Place where
  | out
  /-- Runnable again, on the way to the test of the loop. -/
  | woken (c : Call)
  /-- At the call of `sleep`, with `tickslock`. -/
  | doze (c : Call)
  | asleep (c : Call)
  /-- A call that could not read its argument has no variables. -/
  | ret (c : Option Call) (r : Int)

structure Proc where
  place : Place
  killed : Bool

/-- `wakeup` and `kill` make a process that sleeps runnable. -/
def Proc.wakeup (x : Proc) : Proc :=
  match x.place with
  | .asleep c => { x with place := .woken c }
  | _ => x

theorem Proc.wakeup_doze {x : Proc} {c : Call} :
    x.wakeup.place = .doze c ↔ x.place = .doze c := by
  unfold Proc.wakeup
  split
  · next c' hplace => simp [hplace]
  · exact Iff.rfl

/-- The loop of `sys_sleep`, up to its end or to `sleep`. -/
def Proc.test (x : Proc) (ticks : UInt32) (c : Call) : Proc :=
  if ticks - c.ticks0 < c.n then
    if x.killed then { x with place := .ret (some c) (-1) } else { x with place := .doze c }
  else { x with place := .ret (some c) 0 }

/-- `holder` is the process that keeps `tickslock` from one step to the next. -/
structure State (P : Type) where
  ticks : UInt32
  time : Nat
  holder : Option P
  proc : P → Proc

inductive Act (P : Type) where
  | tick
  /-- `n` is what `argint` reads, unless it fails. -/
  | call (p : P) (n : Option UInt32)
  | run (p : P)
  | kill (p : P)
  | leave (p : P)

section

variable {P : Type} [DecidableEq P]

def State.setProc (s : State P) (p : P) (x : Proc) : State P :=
  { s with proc := Function.update s.proc p x }

/-- Process `p` takes `tickslock` and goes through the test. -/
def State.enter (s : State P) (p : P) (c : Call) : State P :=
  { s.setProc p ((s.proc p).test s.ticks c) with
    holder := match ((s.proc p).test s.ticks c).place with
      | .doze _ => some p
      | _ => none }

def step (s : State P) : Act P → Option (State P)
  | .tick => if s.holder = none then
      some { s with ticks := s.ticks + 1, time := s.time + 1, proc := fun p => (s.proc p).wakeup }
    else none
  | .call p n => match (s.proc p).place, n with
    | .out, none => some (s.setProc p { s.proc p with place := .ret none (-1) })
    | .out, some n => if s.holder = none then some (s.enter p ⟨n, s.ticks, s.time⟩) else none
    | _, _ => none
  | .run p => match (s.proc p).place with
    | .woken c => if s.holder = none then some (s.enter p c) else none
    | .doze c => some { s.setProc p { s.proc p with place := .asleep c } with holder := none }
    | _ => none
  | .kill p => some (s.setProc p { (s.proc p).wakeup with killed := true })
  | .leave p => match (s.proc p).place with
    | .ret _ _ => some (s.setProc p { s.proc p with place := .out })
    | _ => none

def start : State P := ⟨0, 0, none, fun _ => ⟨.out, false⟩⟩

end

/-! ### What holds of a call -/

structure Call.Begun (c : Call) (time : Nat) : Prop where
  ticks0 : c.ticks0 = UInt32.ofNat c.began
  le : c.began ≤ time

/-- The ticks since the call, as far as 32 bits can tell. -/
def Call.Pending (c : Call) (time : Nat) : Prop := (time - c.began) % 2 ^ 32 < c.n.toNat

def Proc.Fits (time : Nat) (x : Proc) : Prop :=
  match x.place with
  | .out => True
  | .woken c => c.Begun time
  | .doze c | .asleep c => c.Begun time ∧ c.Pending time
  | .ret c r => (∃ c', c = some c' ∧ r = 0 ∧ c'.n.toNat ≤ time - c'.began) ∨
    r = -1 ∧ (c = none ∨ x.killed = true)

section

variable {c : Call} {time : Nat} (h : c.Begun time)
include h

theorem Call.Begun.lt_iff : UInt32.ofNat time - c.ticks0 < c.n ↔ c.Pending time := by
  rw [h.ticks0, ← UInt32.ofNat_sub h.le, UInt32.lt_iff_toNat_lt, UInt32.toNat_ofNat']
  rfl

theorem Proc.Fits.test {x : Proc} : (x.test (UInt32.ofNat time) c).Fits time := by
  unfold Proc.test
  by_cases hlt : UInt32.ofNat time - c.ticks0 < c.n
  · rw [if_pos hlt]
    by_cases hkilled : x.killed = true
    · rw [if_pos hkilled]
      exact Or.inr ⟨rfl, Or.inr hkilled⟩
    · rw [if_neg hkilled]
      exact ⟨h, h.lt_iff.mp hlt⟩
  · rw [if_neg hlt]
    have hle : c.n.toNat ≤ (time - c.began) % 2 ^ 32 := not_lt.mp fun hp => hlt (h.lt_iff.mpr hp)
    exact Or.inl ⟨c, rfl, rfl, hle.trans (Nat.mod_le _ _)⟩

theorem Call.Begun.later : c.Begun (time + 1) :=
  ⟨h.ticks0, Nat.le_succ_of_le h.le⟩

end

/-- Nobody sleeps through a tick. -/
theorem Proc.Fits.tick {x : Proc} {time : Nat} (h : x.Fits time)
    (hdoze : ∀ c, x.place ≠ .doze c) : x.wakeup.Fits (time + 1) := by
  obtain ⟨place, killed⟩ := x
  cases place with
  | out => trivial
  | woken c => exact Call.Begun.later h
  | doze c => exact absurd rfl (hdoze c)
  | asleep c => exact h.1.later
  | ret c r =>
    refine h.imp_left ?_
    rintro ⟨c', hc, hr, hle⟩
    exact ⟨c', hc, hr, by omega⟩

theorem Proc.Fits.kill {x : Proc} {time : Nat} (h : x.Fits time) :
    { x.wakeup with killed := true : Proc }.Fits time := by
  obtain ⟨place, killed⟩ := x
  cases place with
  | out => trivial
  | woken c => exact h
  | doze c => exact h
  | asleep c => exact h.1
  | ret c r => exact h.imp_right fun hr => ⟨hr.1, Or.inr rfl⟩

structure Inv {P : Type} (s : State P) : Prop where
  ticks : s.ticks = UInt32.ofNat s.time
  holder : ∀ p c, (s.proc p).place = .doze c → s.holder = some p
  procs : ∀ p, (s.proc p).Fits s.time

section

variable {P : Type} [DecidableEq P] {s s' : State P} {p : P}

/-- A step of process `p`, after which `o` keeps `tickslock`. -/
theorem Inv.setProc (h : Inv s) {x : Proc} {o : Option P} (hx : x.Fits s.time)
    (hself : ∀ c, x.place = .doze c → o = some p)
    (hother : ∀ q ≠ p, s.holder = some q → o = some q) :
    Inv { s.setProc p x with holder := o } where
  ticks := h.ticks
  holder := (Function.forall_update_iff s.proc fun q x => ∀ c, x.place = .doze c → o = some q).mpr
    ⟨hself, fun q hq c hdoze => hother q hq (h.holder q c hdoze)⟩
  procs := (Function.forall_update_iff s.proc fun _ x => x.Fits s.time).mpr
    ⟨hx, fun q _ => h.procs q⟩

theorem Inv.enter (h : Inv s) (hfree : s.holder = none) {c : Call} (hc : c.Begun s.time) :
    Inv (s.enter p c) := by
  refine h.setProc ?_ ?_ ?_
  · rw [h.ticks]
    exact Proc.Fits.test hc
  · intro c' hdoze
    rw [hdoze]
  · intro q _ hq
    rw [hfree] at hq
    cases hq

/-- `sleep` gives `tickslock` back. -/
theorem Inv.sleep (h : Inv s) {c : Call} (hp : (s.proc p).place = .doze c) :
    Inv { s.setProc p { s.proc p with place := .asleep c } with holder := none } := by
  have hfits := h.procs p
  unfold Proc.Fits at hfits
  rw [hp] at hfits
  refine h.setProc hfits (by simp) ?_
  intro q hne hq
  exact absurd (Option.some.inj (hq.symm.trans (h.holder p c hp))) hne

theorem inv_step {l : Act P} (h : Inv s) (hs : step s l = some s') : Inv s' := by
  cases l with
  | tick =>
    obtain ⟨hfree, heq⟩ := Option.ite_none_right_eq_some.mp hs
    cases heq
    have hdoze (q : P) (c : Call) : (s.proc q).place ≠ .doze c := by
      intro hq
      have hholder := h.holder q c hq
      rw [hfree] at hholder
      cases hholder
    refine ⟨?_, ?_, fun q => (h.procs q).tick (hdoze q)⟩
    · rw [h.ticks]
      exact (UInt32.ofNat_add s.time 1).symm
    · intro q c hq
      exact absurd (Proc.wakeup_doze.mp hq) (hdoze q c)
  | call p n =>
    cases hplace : (s.proc p).place with
    | out =>
      cases n with
      | none =>
        simp only [step, hplace, Option.some.injEq] at hs
        subst hs
        exact h.setProc (Or.inr ⟨rfl, Or.inl rfl⟩) (by simp) fun _ _ => id
      | some n =>
        simp only [step, hplace, Option.ite_none_right_eq_some, Option.some.injEq] at hs
        obtain ⟨hfree, rfl⟩ := hs
        exact h.enter hfree ⟨h.ticks, Nat.le_refl _⟩
    | woken c | doze c | asleep c | ret c r => simp [step, hplace] at hs
  | run p =>
    have hp := h.procs p
    unfold Proc.Fits at hp
    cases hplace : (s.proc p).place with
    | woken c =>
      simp only [step, hplace, Option.ite_none_right_eq_some, Option.some.injEq] at hs
      obtain ⟨hfree, rfl⟩ := hs
      rw [hplace] at hp
      exact h.enter hfree hp
    | doze c =>
      simp only [step, hplace, Option.some.injEq] at hs
      subst hs
      exact h.sleep hplace
    | out | asleep c | ret c r => simp [step, hplace] at hs
  | kill p =>
    cases hs
    have hdoze (c : Call) := fun hc => h.holder p c (Proc.wakeup_doze.mp hc)
    exact h.setProc (h.procs p).kill hdoze fun _ _ => id
  | leave p =>
    cases hplace : (s.proc p).place with
    | ret c r =>
      simp only [step, hplace, Option.some.injEq] at hs
      subst hs
      exact h.setProc trivial (by simp) fun _ _ => id
    | out | woken c | doze c | asleep c => simp [step, hplace] at hs

/-- **`sys_sleep` keeps time.** In every run of the clock and of any processes that
sleep, are killed and are run at any time: `ticks` counts the ticks modulo 2 ^ 32; a
call returns 0 only after as many ticks as were asked for, and -1 only in a process
that was killed or that gave no argument that can be read; and a process that is
asleep still has to wait, so none is forgotten when its time has come, as far as 32
bits can tell. -/
theorem sleep_keeps_time (ls : List (Act P)) (s : State P) (hrun : exec step start ls = some s) :
    s.ticks.toNat = s.time % 2 ^ 32 ∧
    (∀ p c, (s.proc p).place = .ret c 0 → ∃ c', c = some c' ∧ c'.n.toNat ≤ s.time - c'.began) ∧
    (∀ p c r, (s.proc p).place = .ret c r → r ≠ 0 →
      r = -1 ∧ (c = none ∨ (s.proc p).killed = true)) ∧
    ∀ p c, (s.proc p).place = .asleep c → (s.time - c.began) % 2 ^ 32 < c.n.toNat := by
  have hstart : Inv (start : State P) := ⟨rfl, by simp [start], fun p => trivial⟩
  have h : Inv s := exec_invariant Inv hstart (fun _ _ _ => inv_step) hrun
  have hfits (p : P) := h.procs p
  unfold Proc.Fits at hfits
  refine ⟨?_, ?_, ?_, ?_⟩
  · rw [h.ticks, UInt32.toNat_ofNat']
  · intro p c hp
    have hret := hfits p
    rw [hp] at hret
    obtain ⟨c', hc, -, hle⟩ | ⟨hr, -⟩ := hret
    · exact ⟨c', hc, hle⟩
    · cases hr
  · intro p c r hp hr
    have hret := hfits p
    rw [hp] at hret
    obtain ⟨-, -, hzero, -⟩ | hfailed := hret
    · exact absurd hzero hr
    · exact hfailed
  · intro p c hp
    have hasleep := hfits p
    rw [hp] at hasleep
    exact hasleep.2

end

/-- A process asks for two ticks and another one for three; the second is killed. -/
def twoTicks : List (Act Bool) :=
  [.call true (some 2), .run true, .call false (some 3), .run false, .tick, .run true, .run true,
    .kill false, .tick, .run true]

theorem sleep_keeps_time_two : ∃ s : State Bool, exec step start twoTicks = some s ∧
    ∃ c, (s.proc true).place = .ret (some c) 0 ∧ 2 ≤ s.time - c.began := by
  obtain ⟨s, hrun, hs⟩ := Option.map_eq_some_iff.mp (show
    (exec step start twoTicks).map (fun s : State Bool => (s.proc true).place) =
      some (.ret (some ⟨2, 0, 0⟩) 0) by rfl)
  obtain ⟨c, hc, hle⟩ := (sleep_keeps_time twoTicks s hrun).2.1 true _ hs
  cases hc
  exact ⟨s, hrun, _, hs, hle⟩

end Xv6.Timer
