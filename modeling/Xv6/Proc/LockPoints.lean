import Xv6.Proc.Locks

/-!
What each instruction does at its point: every point of the code has a fixed lock
that the code up to it has taken and not given back, and an access to the tables
changes the states of processes in one of a few ways.
-/

namespace Xv6.Ptable.Locks

open Prog Container Container.Memory Transition

/-- The lock that is held at a point. -/
def Pc.held : Pc → Option Lock
  | .createScan | .createEnd _ | .destroyClear _ | .destroyLeave _ | .mallocScan _ _ _
  | .mallocEnd => some .ctable
  | .scan _ _ | .scanLeave _ _ _ | .scanEnd | .killScan _ _ | .killEnd _ _ | .addScan _ _
  | .addEnd | .removeScan _ | .removeEnd | .psScan _ | .psEnd | .listScan
  | .ret .listContainers _ | .allocScan | .allocFail | .allocEnd _ | .forkStart _ _ | .forkEnd _
  | .waitLoop | .waitSched | .waitTidy | .waitEnd _ | .exitPass | .exitSched | .zombieExit
  | .sleepState _ | .sleepSched | .sleepTidy | .sleepEnd | .forkret | .yieldState _
  | .yieldSched _ | .yieldEnd _ | .wakeupScan _ _ | .wakeupEnd _ => some .ptable
  | _ => none

/-- The process is not in the code. -/
def Pc.Out : Pc → Prop
  | .user | .panic _ | .fault => True
  | _ => False

/-- The process has changed its state and is about to call `sched`. -/
def Pc.Leaving : Pc → Prop
  | .waitSched | .exitSched | .sleepSched | .yieldSched _ => True
  | _ => False

/-- The slot that `fork` is filling, and whether its context is set. -/
def Pc.child : Pc → Option (Slot × Bool)
  | .allocEnd np | .allocStack np | .allocContext np => some (np, false)
  | .forkCopy np | .forkParent np | .forkEnter np _ | .forkStart np _ => some (np, true)
  | .yield back | .yieldState back | .yieldSched back | .yieldEnd back | .wakeup _ back
  | .wakeupScan _ back | .wakeupEnd back => back.child
  | _ => none

/-- Interrupts come where no lock is held. -/
def Pc.Wf : Pc → Prop
  | .yield back | .yieldState back | .yieldSched back | .yieldEnd back | .wakeup _ back
  | .wakeupScan _ back | .wakeupEnd back => back.held = none ∧ back.Wf
  | _ => True

def SchedPc.held : SchedPc → Option Lock
  | .scan _ _ | .run _ _ | .leave _ | .wakeScan _ _ _ | .wakeEnd _ _ => some .ptable
  | _ => none

section Code

variable {p : Slot} {pc next : Pc} {l : Lock}

theorem Pc.Leaving.held (h : pc.Leaving) : pc.held = some .ptable := by
  cases pc <;> first | rfl | cases h

theorem Pc.Leaving.not_out (h : pc.Leaving) : ¬ pc.Out := by
  cases pc <;> first | exact id | cases h

theorem not_out_of_held (h : pc.held = some l) : ¬ pc.Out := by
  cases pc <;> first | exact id | cases h

theorem not_leaving_of_held (h : pc.held = none) : ¬ pc.Leaving := by
  intro hl
  rw [hl.held] at h
  cases h

theorem Pc.Out.masked (h : pc.Out) (hu : pc ≠ .user) : pc.Masked := by
  cases pc <;> trivial

/-- What `acquire` needs at its point and what holds at the next. -/
structure Acquires (pc next : Pc) (l : Lock) : Prop where
  before : pc.held = none
  after : next.held = some l
  within : ¬ pc.Out
  child : next.child = pc.child
  stays : ¬ next.Leaving
  wf : pc.Wf → next.Wf

theorem acquires (h : code p pc = .acquire l next) : Acquires pc next l := by
  cases pc <;> simp only [code, Instr.acquire.injEq, reduceCtorEq] at h
  all_goals
    obtain ⟨rfl, rfl⟩ := h
    exact ⟨rfl, rfl, id, rfl, id, id⟩

structure Releases (pc next : Pc) (l : Lock) : Prop where
  before : pc.held = some l
  after : next.held = none
  child : next.child = pc.child
  wf : next.Wf

theorem Killer.back_held (k : Killer) (r : Int) :
    (k.back r).held = none ∧ (k.back r).child = none ∧ (k.back r).Wf := by
  cases k <;> exact ⟨rfl, rfl, trivial⟩

theorem releases (hwf : pc.Wf) (h : code p pc = .release l next) : Releases pc next l := by
  cases pc <;> simp only [code, Instr.release.injEq, reduceCtorEq] at h
  case killEnd k r =>
    obtain ⟨rfl, rfl⟩ := h
    obtain ⟨hheld, hchild, hw⟩ := Killer.back_held k r
    exact ⟨rfl, hheld, hchild, hw⟩
  case yieldEnd | wakeupEnd =>
    obtain ⟨rfl, rfl⟩ := h
    exact ⟨rfl, hwf.1, rfl, hwf.2⟩
  all_goals
    obtain ⟨rfl, rfl⟩ := h
    exact ⟨rfl, rfl, rfl, trivial⟩

structure Leaves (pc next : Pc) : Prop where
  leaving : pc.Leaving
  after : next.held = some .ptable
  child : next.child = pc.child
  wf : pc.Wf → next.Wf

theorem leaves (h : code p pc = .sched next) : Leaves pc next := by
  cases pc <;> simp only [code, Instr.sched.injEq, reduceCtorEq] at h
  all_goals
    subst h
    exact ⟨trivial, rfl, rfl, id⟩

theorem context_eq {np : Slot} (h : code p pc = .context np next) :
    pc = .allocContext np ∧ next = .forkCopy np := by
  cases pc <;> simp only [code, Instr.context.injEq, reduceCtorEq] at h
  obtain ⟨rfl, rfl⟩ := h
  exact ⟨rfl, rfl⟩

end Code

/-- What an access to the tables does to the states of the processes, in the
process `p` that goes from `pc` to `next`. -/
inductive Change (p : Slot) (pc next : Pc) (t t' : Table) : Prop where
  | quiet (hchild : next.child = pc.child) (h : ∀ q, (t' q).state = (t q).state)
  | wakes (hheld : pc.held = some .ptable) (hchild : next.child = pc.child) (h : ∀ q, Rises t t' q)
  | leaves (hheld : pc.held = some .ptable) (hchild : next.child = pc.child)
      (hnext : next.Leaving) (h : ∀ q, q ≠ p → Rises t t' q)
  | reaps (q : Slot) (hheld : pc.held = some .ptable) (hchild : next.child = pc.child)
      (hq : (t q).state = .zombie) (hq' : (t' q).state = .unused)
      (h : ∀ r, r ≠ q → (t' r).state = (t r).state)
  | allocates (np : Slot) (hheld : pc.held = some .ptable) (hchild : next.child = some (np, false))
      (hq : (t np).state = .unused) (hq' : (t' np).state = .embryo)
      (h : ∀ r, r ≠ np → (t' r).state = (t r).state)
  | frees (np : Slot) (b : Bool) (hpc : pc.child = some (np, b)) (hchild : next.child = none)
      (hq' : (t' np).state = .unused) (h : ∀ r, r ≠ np → (t' r).state = (t r).state)
  | starts (np : Slot) (hheld : pc.held = some .ptable) (hpc : pc.child = some (np, true))
      (hchild : next.child = none) (hq' : (t' np).state = .runnable)
      (h : ∀ r, r ≠ np → (t' r).state = (t r).state)

structure Accesses (p : Slot) (pc next : Pc) (t t' : Table) : Prop where
  change : Change p pc next t t'
  within : ¬ pc.Out
  before : ¬ pc.Leaving
  after : next.Out ∨ next.held = pc.held
  wf : pc.Wf → next.Wf
  kernel : next ≠ .user

section Access

variable {p q : Slot} {pc : Pc} {d : Data}

theorem state_setProc_of_ne {x : Proc} {r : Slot} (h : r ≠ q) :
    ((d.setProc q x).proc r).state = (d.proc r).state := by
  change (Prog.set d.proc q x r).state = _
  rw [set_of_ne _ _ h]

theorem state_setProc {x : Proc} (h : x.state = (d.proc q).state) (r : Slot) :
    ((d.setProc q x).proc r).state = (d.proc r).state := by
  change (Prog.set d.proc q x r).state = _
  by_cases hr : r = q
  · subst hr
    rw [set_self, h]
  · rw [set_of_ne _ _ hr]

theorem setProc_self {x : Proc} : (d.setProc q x).proc q = x := set_self _ _ _

theorem mallocRound_accesses (numBytes pid : Int) (i : Nat) :
    Accesses p (.mallocScan numBytes pid i) (mallocRound p numBytes pid i d).2 d.proc
      (mallocRound p numBytes pid i d).1.proc := by
  unfold mallocRound
  split
  · split
    · split
      · exact ⟨.quiet rfl fun _ => rfl, id, id, Or.inr rfl, id, by simp⟩
      · exact ⟨.quiet rfl fun _ => rfl, id, id, Or.inl trivial, id, by simp⟩
    · exact ⟨.quiet rfl fun _ => rfl, id, id, Or.inr rfl, id, by simp⟩
  · exact ⟨.quiet rfl fun _ => rfl, id, id, Or.inr rfl, id, by simp⟩

theorem waitRound_accesses :
    Accesses p .waitLoop (waitRound p d).2 d.proc (waitRound p d).1.proc := by
  unfold waitRound
  split
  · next q hq =>
      refine ⟨.reaps q rfl rfl (zombieChild_some hq).2 ?_ ?_, id, id, Or.inr rfl, id, by simp⟩
      · rw [setProc_self]
        rfl
      · intro r hr
        exact state_setProc_of_ne hr
  · split
    · exact ⟨.quiet rfl fun _ => rfl, id, id, Or.inr rfl, id, by simp⟩
    · refine ⟨.leaves rfl rfl trivial ?_, id, id, Or.inr rfl, id, by simp⟩
      intro q hq
      exact Or.inl (state_setProc_of_ne hq)

theorem scanRound_accesses (id : Id) (i : Nat) :
    Accesses p (.scan id i) (scanRound id i d).2 d.proc (scanRound id i d).1.proc := by
  unfold scanRound
  split <;> exact ⟨.quiet rfl fun _ => rfl, fun h => h, fun h => h, Or.inr rfl, fun h => h, by simp⟩

theorem allocRound_accesses :
    Accesses p .allocScan (allocRound d).2 d.proc (allocRound d).1.proc := by
  unfold allocRound
  split
  · next np hnp =>
      refine ⟨.allocates np rfl rfl (unusedSlot_state hnp) ?_ ?_, id, id, Or.inr rfl, id, by simp⟩
      · change ((d.setProc np _).proc np).state = _
        rw [setProc_self]
        rfl
      · intro r hr
        exact state_setProc_of_ne hr
  · exact ⟨.quiet rfl fun _ => rfl, id, id, Or.inr rfl, id, by simp⟩

/-- `fork` gives up: the slot is free again. -/
theorem frees_accesses {np : Slot} {b : Bool} (hpc : pc.child = some (np, b))
    (hheld : pc.held = none) (hout : ¬ pc.Out) :
    Accesses p pc (.ret .fork (-1)) d.proc (d.setProc np ((d.proc np).setState .unused)).proc := by
  refine ⟨.frees np b hpc rfl ?_ ?_, hout, not_leaving_of_held hheld, Or.inr hheld.symm,
    fun _ => trivial, by simp⟩
  · rw [setProc_self]
    rfl
  · intro r hr
    exact state_setProc_of_ne hr

theorem accesses {f : Bool → Data → Data × Pc} (h : code p pc = .access f) (ok : Bool) :
    Accesses p pc (f ok d).2 d.proc (f ok d).1.proc := by
  cases pc <;> simp only [code, Instr.access.injEq, reduceCtorEq] at h <;> subst h
  case mallocScan numBytes pid i => exact mallocRound_accesses numBytes pid i
  case waitLoop => exact waitRound_accesses
  case scan id i => exact scanRound_accesses id i
  case allocScan => exact allocRound_accesses
  case createScan =>
    dsimp only
    split <;> exact ⟨.quiet rfl fun _ => rfl, id, id, Or.inr rfl, id, by simp⟩
  case destroy z =>
    dsimp only
    split
    · exact ⟨.quiet rfl fun _ => rfl, id, id, Or.inr rfl, id, by simp⟩
    · exact ⟨.quiet rfl fun _ => rfl, id, id, Or.inl trivial, id, by simp⟩
  case destroyTest i live =>
    refine ⟨.quiet rfl ?_, id, id, Or.inr rfl, id, by simp⟩
    intro q
    cases live <;> rfl
  case killScan k pid =>
    refine ⟨.wakes rfl rfl ?_, id, id, Or.inr rfl, id, by simp⟩
    intro q
    exact (kill_roused pid d.proc).state q
  case addScan pid i =>
    refine ⟨.quiet rfl ?_, id, id, Or.inr rfl, id, by simp⟩
    intro q
    exact addProcessToContainer_state pid i d.proc q
  case removeScan pid =>
    refine ⟨.quiet rfl ?_, id, id, Or.inr rfl, id, by simp⟩
    intro q
    exact addProcessToContainer_state pid 0 d.proc q
  case allocStack | forkCopy =>
    cases ok
    · exact frees_accesses rfl rfl id
    · exact ⟨.quiet rfl fun _ => rfl, id, id, Or.inr rfl, id, by simp⟩
  case forkStart np pid =>
    refine ⟨.starts np rfl rfl rfl ?_ ?_, id, id, Or.inr rfl, id, by simp⟩
    · rw [setProc_self]
      rfl
    · intro r hr
      exact state_setProc_of_ne hr
  case exit =>
    by_cases hp : p = d.initproc
    · simp only [hp, if_true]
      exact ⟨.quiet rfl fun _ => rfl, id, id, Or.inl trivial, id, by simp⟩
    · simp only [hp, if_false]
      exact ⟨.quiet rfl fun _ => rfl, id, id, Or.inr rfl, id, by simp⟩
  case exitPass =>
    refine ⟨.leaves rfl rfl trivial ?_, id, id, Or.inr rfl, id, by simp⟩
    intro q hq
    exact (exitTable_exited d.initproc p d.proc).state q hq
  case zombieExit =>
    exact ⟨.quiet rfl fun _ => rfl, id, id, Or.inl trivial, id, by simp⟩
  case forkParent | waitTidy | sleepTidy =>
    exact ⟨.quiet rfl (state_setProc rfl), id, id, Or.inr rfl, id, by simp⟩
  case sleepState | yieldState =>
    refine ⟨.leaves rfl rfl trivial ?_, id, id, Or.inr rfl, id, by simp⟩
    intro q hq
    exact Or.inl (state_setProc_of_ne hq)
  case wakeupScan chan back =>
    refine ⟨.wakes rfl rfl ?_, id, id, Or.inr rfl, id, by simp⟩
    intro q
    exact (wakeup1_woken (some chan) d.proc).state q
  all_goals exact ⟨.quiet rfl fun _ => rfl, id, id, Or.inr rfl, id, by simp⟩

end Access

end Xv6.Ptable.Locks
