import Xv6.Proc.Table
import Xv6.Container.Basic
import Xv6.Lib.Transition

/-!
The processes of `proc.c` on any number of CPUs. A step is one section under
`ptable.lock`, one store made without it, or one turn of the scan in
`scheduler`. The lock is explicit because it changes hands in `sched`: the
process takes it, the scheduler of its CPU goes on scanning with it, and the
process that is switched to gives it back.

A process may be preempted (`yield`) wherever it does not hold the lock, also
in the middle of `fork` or of `destroy_container`.
-/

namespace Xv6.Ptable

open Prog Container Transition

/-- How far a process is in a system call when it does not hold the lock.
`user` stands for user space and for kernel code that is not modelled here. -/
inductive Call where
  | user
  /-- `allocproc` has returned the slot. -/
  | forkAlloc (np : Slot)
  /-- `np->parent` is set. -/
  | forkCopied (np : Slot)
  /-- `containers[id]` was read. -/
  | destroyTest (id : Id) (live : Bool)
  | destroyEnter (id : Id)
  /-- The loop over the processes, at slot `i`. -/
  | destroyScan (id : Id) (i : Nat)
  /-- The lock is released for `kill(pid)`. -/
  | destroyKill (id : Id) (q : Slot) (pid : Int)
deriving DecidableEq

/-- The call of `sched` a process has not returned from yet; a new process
starts as if it had called it, in `forkret`. -/
inductive Sched where
  | no | forkret | yield | sleep | wait | exit
deriving DecidableEq

/-- Where the `scheduler` of a CPU is: it looks at the state of a container,
it is about to take the lock, it scans the process table, or it has switched
to the process in slot `i`. -/
inductive SchedPc where
  | look (con : Id)
  | enter (con : Id)
  | scan (con : Id) (i : Nat)
  | run (con : Id) (i : Nat)
deriving DecidableEq

structure Cpu where
  proc : Option Slot
  pc : SchedPc
deriving DecidableEq

structure Machine (C : Type) where
  proc : Table
  nextpid : Int
  initproc : Slot
  containers : Tables
  cpu : C → Cpu
  lock : Option C
  call : Slot → Call
  sched : Slot → Sched

/-- Stores made without `ptable.lock`. -/
inductive Store where
  | forkFail
  | forkParent
  | create
  | destroy (id : Int)
  | clear
  | enter
deriving DecidableEq

/-- Sections under `ptable.lock`. -/
inductive Section where
  | fork | forkDone | exit | wait
  | kill (pid : Int)
  | sleep (a : Nat)
  | yield
  | join (id : Int)
  | leave | list | destroyScan | destroyKill
deriving DecidableEq

inductive Act where
  | schedule
  | wakeup (chan : Chan)
  | resume
  | store (a : Store)
  | locked (a : Section)
deriving DecidableEq

/-- `nextpid++` on an `int`. -/
def succPid (pid : Int) : Int := (pid + 1).bmod (2 ^ 32)

/-- After `userinit`, before any CPU has entered `scheduler`. -/
def userinit (C : Type) : Machine C where
  proc q :=
    { state := if q = 0 then .runnable else .unused
      pid := if q = 0 then 1 else 0
      parent := none
      containerID := 0
      chan := none
      killed := false }
  nextpid := 2
  initproc := 0
  containers := containerInit
  cpu _ := ⟨none, .look 0⟩
  lock := none
  call _ := .user
  sched q := if q = 0 then .forkret else .no

section Steps

variable {C : Type} [DecidableEq C]

namespace Machine

variable (s : Machine C)

def setCall (p : Slot) (k : Call) : Machine C := { s with call := set s.call p k }

def setProc (p : Slot) (x : Proc) : Machine C := { s with proc := set s.proc p x }

def setCpu (c : C) (x : Cpu) : Machine C := { s with cpu := set s.cpu c x }

/-- `release(&ptable.lock)` by a process that is back from `sched`. -/
def release (p : Slot) : Machine C := { s with lock := none, sched := set s.sched p .no }

end Machine

/-- The scheduler after `swtch` returned to it: `c->proc = 0`, next slot. -/
def Cpu.back (x : Cpu) : Cpu where
  proc := none
  pc := match x.pc with
    | .run con i => .scan con (i + 1)
    | pc => pc

/-- `sched()`: process `p` leaves CPU `c`, whose scheduler goes on with the
lock held. -/
def Machine.swtch (s : Machine C) (c : C) (p : Slot) (why : Sched) : Machine C :=
  { s with
    lock := some c
    sched := set s.sched p why
    cpu := set s.cpu c (s.cpu c).back }

def slotAt (i : Nat) : Option Slot := if h : i < NPROC then some ⟨i, h⟩ else none

/-- One turn of the loops of `scheduler`. -/
def schedule (s : Machine C) (c : C) : Option (Machine C) :=
  match (s.cpu c).pc with
  | .look con =>
    some (s.setCpu c ⟨none,
      if s.containers.state con = .cwaiting then .enter con else .look (con + 1)⟩)
  | .enter con =>
    if s.lock = none then some ({ s with lock := some c }.setCpu c ⟨none, .scan con 0⟩) else none
  | .scan con i =>
    match slotAt i with
    | none => some ({ s with lock := none }.setCpu c ⟨none, .look (con + 1)⟩)
    | some q =>
      if (s.proc q).containerID = con.val ∧ (s.proc q).state = .runnable then
        some ((s.setProc q ((s.proc q).setState .running)).setCpu c ⟨some q, .run con i⟩)
      else
        some (s.setCpu c ⟨none, .scan con (i + 1)⟩)
  | .run _ _ => none

def Proc.sleep (x : Proc) (chan : Chan) : Proc :=
  { x with chan := some chan, state := .sleeping }

/-- `p->chan = 0` after `sched` returned in `sleep`. -/
def Proc.tidy (x : Proc) : Proc := { x with chan := none }

/-- The loop of `wait` with the lock held: return, or go to sleep in it. -/
def waitLoop (s : Machine C) (c : C) (p : Slot) : Machine C :=
  match zombieChild s.proc p with
  | some q => (s.setProc q (s.proc q).reap).release p
  | none =>
    if ¬ HasKids s.proc p ∨ (s.proc p).killed then s.release p
    else (s.setProc p ((s.proc p).sleep (.proc p))).swtch c p .wait

/-- What follows the call of `sched` when a process is switched to. `exit` is
never switched to again. -/
def resume (s : Machine C) (c : C) (p : Slot) : Option (Machine C) :=
  match s.sched p with
  | .forkret | .yield => some (s.release p)
  | .sleep => some ((s.setProc p (s.proc p).tidy).release p)
  | .wait => some (waitLoop (s.setProc p (s.proc p).tidy) c p)
  | .no | .exit => none

def store (s : Machine C) (p : Slot) (a : Store) : Option (Machine C) :=
  match a, s.call p with
  -- `kalloc` or `copyuvm` failed
  | .forkFail, .forkAlloc np =>
    some ((s.setProc np ((s.proc np).setState .unused)).setCall p .user)
  | .forkParent, .forkAlloc np =>
    some ((s.setProc np { s.proc np with parent := some p }).setCall p (.forkCopied np))
  | .create, .user => some { s with containers := (createContainer s.containers).2 }
  | .destroy id, .user =>
    (entry id).map (fun id => s.setCall p (.destroyTest id (s.containers.containers id)))
  | .clear, .destroyTest id live =>
    some ({ s with containers :=
      if live then { s.containers with containers := set s.containers.containers id false }
      else s.containers }.setCall p (.destroyEnter id))
  | .enter, .destroyEnter id =>
    some ({ s with containers := destroyContainer s.containers id }.setCall p
      (.destroyScan id 0))
  | _, _ => none

def locked (s : Machine C) (c : C) (p : Slot) (a : Section) : Option (Machine C) :=
  match a, s.call p with
  | .fork, .user =>
    match unusedSlot s.proc with
    | none => some s
    | some np =>
      some { s with
        proc := set s.proc np ((s.proc np).alloc s.nextpid)
        nextpid := succPid s.nextpid
        call := set (set s.call np .user) p (.forkAlloc np)
        sched := set s.sched np .forkret }
  | .forkDone, .forkCopied np => some ((s.setProc np (s.proc np).start).setCall p .user)
  -- `initproc` panics
  | .exit, .user =>
    if p = s.initproc then none
    else some ({ s with proc := exitTable s.initproc p s.proc }.swtch c p .exit)
  | .wait, .user => some (waitLoop s c p)
  | .kill pid, .user => some { s with proc := kill pid s.proc }
  | .sleep a, .user => some ((s.setProc p ((s.proc p).sleep (.addr a))).swtch c p .sleep)
  | .yield, _ => some ((s.setProc p ((s.proc p).setState .runnable)).swtch c p .yield)
  | .join id, .user => some { s with proc := addProcessToContainer (s.proc p).pid id s.proc }
  | .leave, .user => some { s with proc := removeProcessFromContainer (s.proc p).pid s.proc }
  -- `listContainersHelper` does not release the lock
  | .list, .user => some { s with lock := some c }
  | .destroyScan, .destroyScan id i =>
    match nextMember s.proc id.val i with
    | some q => some (s.setCall p (.destroyKill id q (s.proc q).pid))
    | none => some (s.setCall p .user)
  | .destroyKill, .destroyKill id q pid =>
    some ({ s with proc := kill pid s.proc }.setCall p (.destroyScan id (q.val + 1)))
  | _, _ => none

/-- The process that runs on a CPU, unless it has just been switched to. -/
def Machine.current (s : Machine C) (c : C) : Option Slot :=
  (s.cpu c).proc.filter (fun p => s.sched p == .no)

/-- One step on CPU `c`. `wakeup` may also come from an interrupt. -/
def step (s : Machine C) : C × Act → Option (Machine C)
  | (c, .schedule) => schedule s c
  | (_, .wakeup chan) =>
    if s.lock = none then some { s with proc := wakeup1 (some chan) s.proc } else none
  | (c, .resume) => (s.cpu c).proc.bind (resume s c)
  | (c, .store a) => (s.current c).bind (fun p => store s p a)
  | (c, .locked a) =>
    if s.lock = none then (s.current c).bind (fun p => locked s c p a) else none

/-- Everything a step can do, with the guards it passed. -/
inductive Step (s : Machine C) : C × Act → Machine C → Prop where
  | look (c : C) (con con' : Id) (x : SchedPc) (hpc : (s.cpu c).pc = .look con)
      (hx : x = .enter con' ∨ x = .look con') : Step s (c, .schedule) (s.setCpu c ⟨none, x⟩)
  | enter (c : C) (con : Id) (hpc : (s.cpu c).pc = .enter con) (hlock : s.lock = none) :
      Step s (c, .schedule) ({ s with lock := some c }.setCpu c ⟨none, .scan con 0⟩)
  | scanEnd (c : C) (con : Id) (i : Nat) (hpc : (s.cpu c).pc = .scan con i) :
      Step s (c, .schedule) ({ s with lock := none }.setCpu c ⟨none, .look (con + 1)⟩)
  | scanNext (c : C) (con : Id) (i : Nat) (hpc : (s.cpu c).pc = .scan con i) :
      Step s (c, .schedule) (s.setCpu c ⟨none, .scan con (i + 1)⟩)
  | dispatch (c : C) (con : Id) (i : Nat) (q : Slot) (hpc : (s.cpu c).pc = .scan con i)
      (hrun : (s.proc q).state = .runnable) : Step s (c, .schedule)
        ((s.setProc q ((s.proc q).setState .running)).setCpu c ⟨some q, .run con i⟩)
  | wakeup (c : C) (chan : Chan) (hlock : s.lock = none) :
      Step s (c, .wakeup chan) { s with proc := wakeup1 (some chan) s.proc }
  | resumed (c : C) (p : Slot) (hp : (s.cpu c).proc = some p)
      (hs : s.sched p = .forkret ∨ s.sched p = .yield) : Step s (c, .resume) (s.release p)
  | slept (c : C) (p : Slot) (hp : (s.cpu c).proc = some p) (hs : s.sched p = .sleep) :
      Step s (c, .resume) ((s.setProc p (s.proc p).tidy).release p)
  | waited (c : C) (p : Slot) (hp : (s.cpu c).proc = some p) (hs : s.sched p = .wait) :
      Step s (c, .resume) (waitLoop (s.setProc p (s.proc p).tidy) c p)
  | forkFail (c : C) (p np : Slot) (hp : s.current c = some p) (hcall : s.call p = .forkAlloc np) :
      Step s (c, .store .forkFail)
        ((s.setProc np ((s.proc np).setState .unused)).setCall p .user)
  | forkParent (c : C) (p np : Slot) (hp : s.current c = some p)
      (hcall : s.call p = .forkAlloc np) : Step s (c, .store .forkParent)
        ((s.setProc np { s.proc np with parent := some p }).setCall p (.forkCopied np))
  | create (c : C) (p : Slot) (hp : s.current c = some p) (hcall : s.call p = .user) :
      Step s (c, .store .create) { s with containers := (createContainer s.containers).2 }
  | destroy (c : C) (p : Slot) (z : Int) (id : Id) (hp : s.current c = some p)
      (hcall : s.call p = .user) (hid : entry z = some id) : Step s (c, .store (.destroy z))
        (s.setCall p (.destroyTest id (s.containers.containers id)))
  | clear (c : C) (p : Slot) (id : Id) (live : Bool) (hp : s.current c = some p)
      (hcall : s.call p = .destroyTest id live) : Step s (c, .store .clear)
        ({ s with containers :=
          if live then { s.containers with containers := set s.containers.containers id false }
          else s.containers }.setCall p (.destroyEnter id))
  | destroyed (c : C) (p : Slot) (id : Id) (hp : s.current c = some p)
      (hcall : s.call p = .destroyEnter id) : Step s (c, .store .enter)
        ({ s with containers := destroyContainer s.containers id }.setCall p (.destroyScan id 0))
  | forkFull (c : C) (p : Slot) (hp : s.current c = some p) (hcall : s.call p = .user) :
      Step s (c, .locked .fork) s
  | fork (c : C) (p np : Slot) (hp : s.current c = some p) (hlock : s.lock = none)
      (hcall : s.call p = .user) (hnp : unusedSlot s.proc = some np) : Step s (c, .locked .fork)
        { s with
          proc := set s.proc np ((s.proc np).alloc s.nextpid)
          nextpid := succPid s.nextpid
          call := set (set s.call np .user) p (.forkAlloc np)
          sched := set s.sched np .forkret }
  | forkDone (c : C) (p np : Slot) (hp : s.current c = some p) (hlock : s.lock = none)
      (hcall : s.call p = .forkCopied np) : Step s (c, .locked .forkDone)
        ((s.setProc np (s.proc np).start).setCall p .user)
  | exit (c : C) (p : Slot) (hp : s.current c = some p) (hlock : s.lock = none)
      (hcall : s.call p = .user) (hne : p ≠ s.initproc) : Step s (c, .locked .exit)
        ({ s with proc := exitTable s.initproc p s.proc }.swtch c p .exit)
  | wait (c : C) (p : Slot) (hp : s.current c = some p) (hlock : s.lock = none)
      (hcall : s.call p = .user) : Step s (c, .locked .wait) (waitLoop s c p)
  | kill (c : C) (p : Slot) (pid : Int) (hp : s.current c = some p) (hlock : s.lock = none)
      (hcall : s.call p = .user) : Step s (c, .locked (.kill pid))
        { s with proc := Xv6.Ptable.kill pid s.proc }
  | sleep (c : C) (p : Slot) (a : Nat) (hp : s.current c = some p) (hlock : s.lock = none)
      (hcall : s.call p = .user) : Step s (c, .locked (.sleep a))
        ((s.setProc p ((s.proc p).sleep (.addr a))).swtch c p .sleep)
  | yield (c : C) (p : Slot) (hp : s.current c = some p) (hlock : s.lock = none) :
      Step s (c, .locked .yield)
        ((s.setProc p ((s.proc p).setState .runnable)).swtch c p .yield)
  | join (c : C) (p : Slot) (id : Int) (hp : s.current c = some p) (hlock : s.lock = none)
      (hcall : s.call p = .user) : Step s (c, .locked (.join id))
        { s with proc := addProcessToContainer (s.proc p).pid id s.proc }
  | leave (c : C) (p : Slot) (hp : s.current c = some p) (hlock : s.lock = none)
      (hcall : s.call p = .user) : Step s (c, .locked .leave)
        { s with proc := removeProcessFromContainer (s.proc p).pid s.proc }
  | list (c : C) (p : Slot) (hp : s.current c = some p) (hlock : s.lock = none)
      (hcall : s.call p = .user) : Step s (c, .locked .list) { s with lock := some c }
  | destroyNext (c : C) (p q : Slot) (id : Id) (i : Nat) (hp : s.current c = some p)
      (hlock : s.lock = none) (hcall : s.call p = .destroyScan id i)
      (hq : nextMember s.proc id.val i = some q) : Step s (c, .locked .destroyScan)
        (s.setCall p (.destroyKill id q (s.proc q).pid))
  | destroyEnd (c : C) (p : Slot) (id : Id) (i : Nat) (hp : s.current c = some p)
      (hlock : s.lock = none) (hcall : s.call p = .destroyScan id i)
      (hq : nextMember s.proc id.val i = none) : Step s (c, .locked .destroyScan)
        (s.setCall p .user)
  | destroyKill (c : C) (p q : Slot) (id : Id) (pid : Int) (hp : s.current c = some p)
      (hlock : s.lock = none) (hcall : s.call p = .destroyKill id q pid) :
      Step s (c, .locked .destroyKill)
        ({ s with proc := Xv6.Ptable.kill pid s.proc }.setCall p (.destroyScan id (q.val + 1)))

variable {s s' : Machine C} {c : C}

theorem schedule_cases (h : schedule s c = some s') : Step s (c, .schedule) s' := by
  unfold schedule at h
  split at h
  · next con hpc =>
      cases h
      split
      · exact .look c con con _ hpc (Or.inl rfl)
      · exact .look c con (con + 1) _ hpc (Or.inr rfl)
  · next con hpc =>
      split_ifs at h with hlock
      cases h
      exact .enter c con hpc hlock
  · next con i hpc =>
      split at h
      · cases h
        exact .scanEnd c con i hpc
      · next q hq =>
          split_ifs at h with hrun
          · cases h
            exact .dispatch c con i q hpc hrun.2
          · cases h
            exact .scanNext c con i hpc
  · cases h

variable {p : Slot}

theorem resume_cases (hp : (s.cpu c).proc = some p) (h : resume s c p = some s') :
    Step s (c, .resume) s' := by
  unfold resume at h
  split at h
  · next hs =>
      cases h
      exact .resumed c p hp (Or.inl hs)
  · next hs =>
      cases h
      exact .resumed c p hp (Or.inr hs)
  · next hs =>
      cases h
      exact .slept c p hp hs
  · next hs =>
      cases h
      exact .waited c p hp hs
  · cases h
  · cases h

theorem store_cases {a : Store} (hp : s.current c = some p) (h : store s p a = some s') :
    Step s (c, .store a) s' := by
  unfold store at h
  split at h
  · next np hcall =>
      cases h
      exact .forkFail c p np hp hcall
  · next np hcall =>
      cases h
      exact .forkParent c p np hp hcall
  · next hcall =>
      cases h
      exact .create c p hp hcall
  · next z hcall =>
      obtain ⟨id, hid, rfl⟩ := Option.map_eq_some_iff.mp h
      exact .destroy c p z id hp hcall hid
  · next id live hcall =>
      cases h
      exact .clear c p id live hp hcall
  · next id hcall =>
      cases h
      exact .destroyed c p id hp hcall
  · cases h

theorem locked_cases {a : Section} (hp : s.current c = some p) (hlock : s.lock = none)
    (h : locked s c p a = some s') : Step s (c, .locked a) s' := by
  unfold locked at h
  split at h
  · next hcall =>
      split at h
      · cases h
        exact .forkFull c p hp hcall
      · next np hnp =>
          cases h
          exact .fork c p np hp hlock hcall hnp
  · next np hcall =>
      cases h
      exact .forkDone c p np hp hlock hcall
  · next hcall =>
      split_ifs at h with hinit
      cases h
      exact .exit c p hp hlock hcall hinit
  · next hcall =>
      cases h
      exact .wait c p hp hlock hcall
  · next pid hcall =>
      cases h
      exact .kill c p pid hp hlock hcall
  · next a hcall =>
      cases h
      exact .sleep c p a hp hlock hcall
  · cases h
    exact .yield c p hp hlock
  · next id hcall =>
      cases h
      exact .join c p id hp hlock hcall
  · next hcall =>
      cases h
      exact .leave c p hp hlock hcall
  · next hcall =>
      cases h
      exact .list c p hp hlock hcall
  · next id i hcall =>
      split at h
      · next q hq =>
          cases h
          exact .destroyNext c p q id i hp hlock hcall hq
      · next hq =>
          cases h
          exact .destroyEnd c p id i hp hlock hcall hq
  · next id q pid hcall =>
      cases h
      exact .destroyKill c p q id pid hp hlock hcall
  · cases h

theorem step_cases {l : C × Act} (h : step s l = some s') : Step s l s' := by
  obtain ⟨c, a⟩ := l
  cases a with
  | schedule => exact schedule_cases h
  | wakeup chan =>
    simp only [step] at h
    split_ifs at h with hlock
    cases h
    exact .wakeup c chan hlock
  | resume =>
    obtain ⟨p, hp, hres⟩ := Option.bind_eq_some_iff.mp h
    exact resume_cases hp hres
  | store a =>
    obtain ⟨p, hp, hst⟩ := Option.bind_eq_some_iff.mp h
    exact store_cases hp hst
  | locked a =>
    simp only [step] at h
    split_ifs at h with hlock
    obtain ⟨p, hp, hsec⟩ := Option.bind_eq_some_iff.mp h
    exact locked_cases hp hlock hsec

omit [DecidableEq C] in
theorem current_eq_some : s.current c = some p ↔ (s.cpu c).proc = some p ∧ s.sched p = .no := by
  unfold Machine.current
  rw [Option.filter_eq_some_iff]
  simp

/-- What the loop of `wait` ends in. -/
theorem waitLoop_cases (s : Machine C) (c : C) (p : Slot) :
    (∃ q, zombieChild s.proc p = some q ∧
      waitLoop s c p = (s.setProc q (s.proc q).reap).release p) ∨
    waitLoop s c p = s.release p ∨
    (zombieChild s.proc p = none ∧
      waitLoop s c p = (s.setProc p ((s.proc p).sleep (.proc p))).swtch c p .wait) := by
  unfold waitLoop
  split
  · next q hq => exact Or.inl ⟨q, hq, rfl⟩
  · next hnone =>
      split
      · exact Or.inr (Or.inl rfl)
      · exact Or.inr (Or.inr ⟨hnone, rfl⟩)

end Steps

end Xv6.Ptable
