import Xv6.Lib.Exclusive
import Xv6.Lib.Transition

/-!
The spin lock of `spinlock.c`, one access to the lock at a time, on any number of
CPUs; the accesses take effect in order, which is what the barriers of the source are
for. A CPU outside the lock's code may call `acquire` or `release` whether or not
it holds the lock. `holds` marks the time from the `xchg` that takes the lock to the
store that frees it.
-/

namespace Xv6.Spinlock

open Transition

/-- `struct spinlock`, without what is kept for debugging only. -/
structure Lock (C : Type) where
  locked : Bool
  cpu : Option C

/-- `mycpu()->ncli`, `mycpu()->intena` and the interrupt flag `FL_IF`. -/
structure Flags where
  ncli : Int
  intena : Bool
  interrupts : Bool

inductive Panic where
  | acquire | release | popcliInterruptible | popcli
deriving DecidableEq

def pushcli (f : Flags) : Flags where
  ncli := f.ncli + 1
  intena := if f.ncli = 0 then f.interrupts else f.intena
  interrupts := false

def popcli (f : Flags) : Except Panic Flags :=
  if f.interrupts then .error .popcliInterruptible
  else if f.ncli - 1 < 0 then .error .popcli
  else .ok { f with ncli := f.ncli - 1, interrupts := decide (f.ncli - 1 = 0) && f.intena }

/-- The two functions that call `holding`. -/
inductive Caller where
  | acquire | release
deriving DecidableEq

inductive Pc where
  | out
  -- `holding`: its two reads, and its `popcli` with the result at hand
  | readLocked (f : Caller) | readCpu (f : Caller) | endHolding (f : Caller) (r : Bool)
  -- `acquire`
  | xchg | setCpu
  -- `release`
  | clearCpu | unlock | popcli
  | panic (e : Panic)
deriving DecidableEq

structure Cpu where
  pc : Pc
  flags : Flags
  holds : Bool

def Cpu.popcli (x : Cpu) (next : Pc) : Cpu :=
  match Spinlock.popcli x.flags with
  | .ok f => { x with pc := next, flags := f }
  | .error e => { x with pc := .panic e }

/-- Where `acquire` and `release` go on after `holding` returned `r`. -/
def afterHolding : Caller → Bool → Pc
  | .acquire, false => .xchg
  | .acquire, true => .panic .acquire
  | .release, true => .clearCpu
  | .release, false => .panic .release

inductive Act where
  | acquire | release | run

section

variable {C : Type} [DecidableEq C]

/-- The next step of CPU `c`. -/
def advance (c : C) (lk : Lock C) (x : Cpu) : Act → Option (Lock C × Cpu)
  | .acquire => if x.pc = .out then
      some (lk, { x with pc := .readLocked .acquire, flags := pushcli (pushcli x.flags) }) else none
  | .release => if x.pc = .out then
      some (lk, { x with pc := .readLocked .release, flags := pushcli x.flags }) else none
  | .run => match x.pc with
    | .out | .panic _ => none
    | .readLocked f =>
      some (lk, { x with pc := if lk.locked then .readCpu f else .endHolding f false })
    | .readCpu f => some (lk, { x with pc := .endHolding f (decide (lk.cpu = some c)) })
    | .endHolding f r => some (lk, x.popcli (afterHolding f r))
    | .xchg => some (if lk.locked then (lk, x)
        else ({ lk with locked := true }, { x with pc := .setCpu, holds := true }))
    | .setCpu => some ({ lk with cpu := some c }, { x with pc := .out })
    | .clearCpu => some ({ lk with cpu := none }, { x with pc := .unlock })
    | .unlock => some ({ lk with locked := false }, { x with pc := .popcli, holds := false })
    | .popcli => some (lk, x.popcli .out)

structure State (C : Type) where
  lock : Lock C
  cpu : C → Cpu

def step (s : State C) (l : C × Act) : Option (State C) :=
  (advance l.1 s.lock (s.cpu l.1) l.2).map fun r => ⟨r.1, Function.update s.cpu l.1 r.2⟩

/-- After `initlock`. -/
def start (f : C → Flags) : State C := ⟨⟨false, none⟩, fun c => ⟨.out, f c, false⟩⟩

end

/-- How many calls of `pushcli` the lock's code has made that are still open. -/
def Cpu.depth (x : Cpu) : Nat :=
  match x.pc with
  | .out => x.holds.toNat
  | .readLocked .acquire | .readCpu .acquire | .endHolding .acquire _ => x.holds.toNat + 2
  | .readLocked .release | .readCpu .release | .endHolding .release _ => x.holds.toNat + 1
  | .panic .acquire => 2
  | .panic _ => 0
  | _ => 1

/-- Interrupts are off inside a `pushcli`. -/
def Flags.Ok (f : Flags) : Prop := 0 ≤ f.ncli ∧ (0 < f.ncli → f.interrupts = false)

/-- The flags of a CPU that came with `b` into the lock's code. -/
structure Flags.Inside (b f : Flags) (depth : Nat) : Prop where
  ncli : f.ncli = b.ncli + depth
  interrupts : f.interrupts = (decide (depth = 0) && b.interrupts)
  intena : 0 < depth → f.intena = if b.ncli = 0 then b.interrupts else b.intena
  outside : 0 < b.ncli → f.intena = b.intena

section Flags

variable {b f : Flags} {k : Nat}

theorem Flags.Inside.pushcli (h : b.Inside f k) (hb : b.Ok) : b.Inside (pushcli f) (k + 1) := by
  obtain ⟨hpos, hoff⟩ := hb
  obtain ⟨hncli, hint, hena, hout⟩ := h
  refine ⟨?_, rfl, ?_, ?_⟩ <;> grind [Spinlock.pushcli]

theorem Flags.Inside.popcli (h : b.Inside f (k + 1)) (hb : b.Ok) :
    ∃ f', popcli f = .ok f' ∧ b.Inside f' k := by
  obtain ⟨hpos, hoff⟩ := hb
  obtain ⟨hncli, hint, hena, hout⟩ := h
  refine ⟨{ f with ncli := f.ncli - 1, interrupts := decide (f.ncli - 1 = 0) && f.intena }, ?_, ?_⟩
  · grind [Spinlock.popcli]
  · refine ⟨?_, ?_, ?_, ?_⟩ <;> grind

end Flags

/-- What a CPU at `pc` knows about whether it holds the lock. -/
def Pc.fits : Pc → Bool → Bool
  | .endHolding _ r, holds => r == holds
  | .xchg, holds | .popcli, holds | .panic .release, holds => !holds
  | .setCpu, holds | .clearCpu, holds | .unlock, holds | .panic .acquire, holds => holds
  | .panic _, _ => false
  | _, _ => true

/-- While a CPU holds the lock, `lk->cpu` names it, except at the two ends. -/
def Pc.recorded : Pc → Bool
  | .setCpu | .unlock => false
  | _ => true

/-- What CPU `c` and the lock have to do with each other. -/
structure Local {C : Type} (c : C) (b : Flags) (lk : Lock C) (x : Cpu) : Prop where
  cpu : lk.cpu = some c ↔ x.holds = true ∧ x.pc.recorded = true
  fits : x.pc.fits x.holds = true
  flags : b.Inside x.flags x.depth

/-- What a step of CPU `c` does to the lock. -/
inductive Change {C : Type} (c : C) (lk : Lock C) (x x' : Cpu) : Lock C → Prop
  | keeps (hx : x'.holds = x.holds) : Change c lk x x' lk
  | takes (hfree : lk.locked = false) (hx : x'.holds = true) :
      Change c lk x x' { lk with locked := true }
  | frees (hheld : x.holds = true) (hx : x'.holds = false) :
      Change c lk x x' { lk with locked := false }
  | records (r : Option C) (hr : ∀ d, r = some d → d = c) (hheld : x.holds = true)
      (hx : x'.holds = x.holds) : Change c lk x x' { lk with cpu := r }

/-- The marks of the CPUs. -/
def State.holds {C : Type} (s : State C) (c : C) : Bool := (s.cpu c).holds

structure Inv {C : Type} (b : C → Flags) (s : State C) : Prop where
  cpus : ∀ c, Local c (b c) s.lock (s.cpu c)
  exclusive : Exclusive s.lock.locked s.holds

section

variable {C : Type} {c : C} {b : Flags} {lk lk' : Lock C} {x x' : Cpu} {a : Act}

theorem Local.popcli (h : Local c b lk x) (hb : b.Ok) (next : Pc)
    (hdepth : x.depth = { x with pc := next : Cpu }.depth + 1)
    (hfits : next.fits x.holds = true) (hrec : next.recorded = x.pc.recorded) :
    Local c b lk (x.popcli next) ∧ Change c lk x (x.popcli next) lk := by
  obtain ⟨f, hf, hin⟩ := (hdepth ▸ h.flags).popcli hb
  have hpop : x.popcli next = { x with pc := next, flags := f } := by simp [Cpu.popcli, hf]
  rw [hpop]
  exact ⟨⟨by simpa [hrec] using h.cpu, hfits, hin⟩, .keeps rfl⟩

theorem Local.depth_ne_zero (h : Local c b lk x) (hheld : x.holds = true) : x.depth ≠ 0 := by
  obtain ⟨pc, fl, holds⟩ := x
  obtain rfl : holds = true := hheld
  have hfits := h.fits
  unfold Cpu.depth
  cases pc with
  | readLocked f | readCpu f | endHolding f r => cases f <;> simp
  | panic e => cases e <;> simp_all [Pc.fits]
  | _ => simp

/-- The holder alone may write `lk->cpu` or free the lock. -/
theorem Local.other {d : C} (h : Local d b lk x) (hne : d ≠ c) {y y' : Cpu}
    (hchange : Change c lk y y' lk') (hnot : y.holds = true → x.holds = false) :
    Local d b lk' x := by
  cases hchange with
  | keeps hx => exact h
  | takes hfree hx => exact { h with }
  | frees hheld hx => exact { h with }
  | records r hr hheld hx =>
    refine { h with cpu := ?_ }
    simp only [hnot hheld, Bool.false_eq_true, false_and, iff_false]
    exact fun heq => hne (hr d heq)

theorem inv_start (f : C → Flags) : Inv f (start f) := by
  refine ⟨fun c => ⟨by simp [start], rfl, ?_⟩, by simp [start, State.holds],
    by simp [start, State.holds]⟩
  exact ⟨by simp [start, Cpu.depth], by simp [start, Cpu.depth], by simp [start, Cpu.depth],
    fun _ => rfl⟩

variable [DecidableEq C]

theorem Local.advance (h : Local c b lk x) (hb : b.Ok) (hlocked : x.holds = true → lk.locked = true)
    (hs : advance c lk x a = some (lk', x')) : Local c b lk' x' ∧ Change c lk x x' lk' := by
  obtain ⟨pc, fl, holds⟩ := x
  obtain ⟨hcpu, hfits, hflags⟩ := h
  cases a with
  | acquire =>
    obtain ⟨rfl, heq⟩ := Option.ite_none_right_eq_some.mp hs
    cases heq
    exact ⟨⟨hcpu, rfl, (hflags.pushcli hb).pushcli hb⟩, .keeps rfl⟩
  | release =>
    obtain ⟨rfl, heq⟩ := Option.ite_none_right_eq_some.mp hs
    cases heq
    exact ⟨⟨hcpu, rfl, hflags.pushcli hb⟩, .keeps rfl⟩
  | run =>
    cases pc with
    | out => cases hs
    | panic e => cases hs
    | readLocked f =>
      cases hs
      cases hlk : lk.locked with
      | true => exact ⟨⟨hcpu, rfl, by cases f <;> exact hflags⟩, .keeps rfl⟩
      | false =>
        obtain rfl : holds = false := by
          by_contra hheld
          rw [hlocked (Bool.of_not_eq_false hheld)] at hlk
          cases hlk
        exact ⟨⟨hcpu, rfl, by cases f <;> exact hflags⟩, .keeps rfl⟩
    | readCpu f =>
      cases hs
      refine ⟨⟨hcpu, ?_, by cases f <;> exact hflags⟩, .keeps rfl⟩
      rw [Pc.fits, beq_iff_eq, Bool.eq_iff_iff]
      simpa [Pc.recorded] using hcpu
    | endHolding f r =>
      cases hs
      obtain rfl : r = holds := by simpa [Pc.fits] using hfits
      apply Local.popcli ⟨hcpu, hfits, hflags⟩ hb <;> cases f <;> cases r <;> rfl
    | xchg =>
      cases hlk : lk.locked with
      | true =>
        simp only [Spinlock.advance, hlk, if_true] at hs
        cases hs
        exact ⟨⟨hcpu, hfits, hflags⟩, .keeps rfl⟩
      | false =>
        simp only [Spinlock.advance, hlk, Bool.false_eq_true, if_false] at hs
        cases hs
        obtain rfl : holds = false := by simpa [Pc.fits] using hfits
        exact ⟨⟨by simpa [Pc.recorded] using hcpu, rfl, hflags⟩, .takes hlk rfl⟩
    | setCpu | clearCpu =>
      cases hs
      obtain rfl : holds = true := hfits
      exact ⟨⟨by simp [Pc.recorded], rfl, hflags⟩, .records _ (by simp) rfl rfl⟩
    | unlock =>
      cases hs
      obtain rfl : holds = true := hfits
      exact ⟨⟨by simpa [Pc.recorded] using hcpu, rfl, hflags⟩, .frees rfl rfl⟩
    | popcli =>
      cases hs
      obtain rfl : holds = false := by simpa [Pc.fits] using hfits
      exact Local.popcli ⟨hcpu, hfits, hflags⟩ hb _ rfl rfl rfl

theorem inv_step {f : C → Flags} {s s' : State C} (hf : ∀ c, (f c).Ok) {l : C × Act} (h : Inv f s)
    (hs : step s l = some s') : Inv f s' := by
  obtain ⟨c, a⟩ := l
  obtain ⟨⟨lk', x'⟩, hadv, rfl⟩ := Option.map_eq_some_iff.mp hs
  obtain ⟨hlocal, hchange⟩ := (h.cpus c).advance (hf c) (h.exclusive.locked_of) hadv
  constructor
  · intro d
    by_cases hd : d = c
    · subst hd
      simpa using hlocal
    · simpa [hd] using (h.cpus d).other hd hchange fun hheld => h.exclusive.other hheld hd
  · have hmarks : State.holds ⟨lk', Function.update s.cpu c x'⟩ =
        Function.update s.holds c x'.holds := Function.comp_update Cpu.holds s.cpu c x'
    have hex := h.exclusive
    rw [hmarks]
    cases hchange with
    | keeps hx => exact hex.keep hx
    | takes hfree hx =>
      rw [hfree] at hex
      rw [hx]
      exact hex.take c
    | frees hheld hx =>
      rw [hx]
      exact hex.free hheld
    | records r hr hheld hx => exact hex.keep hx

/-- **Mutual exclusion.** In every run, whatever the CPUs call: one CPU at most
holds the lock, and `locked` says whether one does; `holding` tells a CPU whether it
is the one, so `acquire` panics exactly in the holder, which therefore never spins,
and `release` exactly in another CPU, and `popcli` never; the holder has interrupts
off, and a CPU that is done with the lock has its interrupts as before. -/
theorem spinlock_exclusive (f : C → Flags) (hf : ∀ c, (f c).Ok) (ls : List (C × Act))
    (s : State C) (hrun : exec step (start f) ls = some s) :
    (∀ c d, s.holds c = true → s.holds d = true → c = d) ∧
    (s.lock.locked = true ↔ ∃ c, s.holds c = true) ∧
    (∀ c g r, (s.cpu c).pc = .endHolding g r → r = s.holds c) ∧
    (∀ c, (s.cpu c).pc = .xchg → s.holds c = false) ∧
    (∀ c e, (s.cpu c).pc = .panic e →
      e = .acquire ∧ s.holds c = true ∨ e = .release ∧ s.holds c = false) ∧
    (∀ c, s.holds c = true → (s.cpu c).flags.interrupts = false) ∧
    ∀ c, (s.cpu c).pc = .out → s.holds c = false →
      (s.cpu c).flags.ncli = (f c).ncli ∧ (s.cpu c).flags.interrupts = (f c).interrupts := by
  have h : Inv f s := exec_invariant (Inv f) (inv_start f) (fun _ _ _ => inv_step hf) hrun
  have hfits (c : C) : (s.cpu c).pc.fits (s.holds c) = true := (h.cpus c).fits
  refine ⟨h.exclusive.unique, h.exclusive.locked_iff, ?_, ?_, ?_, ?_, ?_⟩
  · intro c g r hpc
    simpa [hpc, Pc.fits] using hfits c
  · intro c hpc
    simpa [hpc, Pc.fits] using hfits c
  · intro c e hpc
    have hc := hfits c
    rw [hpc] at hc
    cases e <;> simp_all [Pc.fits]
  · intro c hheld
    rw [(h.cpus c).flags.interrupts]
    simp [(h.cpus c).depth_ne_zero hheld]
  · intro c hpc hfree
    have hdepth : (s.cpu c).depth = 0 := by
      rw [Cpu.depth, hpc]
      exact congrArg Bool.toNat hfree
    have hin := (h.cpus c).flags
    rw [hdepth] at hin
    exact ⟨by simpa using hin.ncli, by simpa using hin.interrupts⟩

end

/-- One of two CPUs takes the lock while the other one asks for it. -/
def contended : List (Bool × Act) :=
  [(true, .acquire), (false, .acquire), (true, .run), (true, .run), (false, .run), (true, .run),
    (false, .run), (false, .run), (true, .run)]

theorem spinlock_exclusive_contended : ∃ s : State Bool,
    exec step (start fun _ => ⟨0, false, true⟩) contended = some s ∧
    (s.cpu false).pc = .xchg ∧ (s.cpu true).flags.interrupts = false := by
  obtain ⟨s, hrun, hs⟩ := Option.map_eq_some_iff.mp (show
    (exec step (start fun _ => ⟨0, false, true⟩) contended).map
      (fun s : State Bool => ((s.cpu false).pc, s.holds true)) = some (.xchg, true) by decide)
  obtain ⟨hpc, hheld⟩ := Prod.mk.inj hs
  have h := spinlock_exclusive _ (by intro c; exact ⟨le_rfl, by simp⟩) contended s hrun
  exact ⟨s, hrun, hpc, h.2.2.2.2.2.1 true hheld⟩

end Xv6.Spinlock
