import Xv6.Proc.Machine
import Xv6.Container.Memory

/-!
The code of `proc.c` and `sysproc.c` that takes `ptable.lock` or `ctable.lock`,
one instruction at a time, on any number of CPUs. A process is at a program
point; an instruction takes a lock, gives one back, reads and writes the tables,
or leaves the CPU. What the other kernel code does is not here, except that a
process may sleep and that an interrupt may come where interrupts are on.

A loop in which no lock is touched is one instruction, apart from the loop of
`container_malloc`, which reads `myproc()->containerID` in every round without the
lock that protects it.
-/

namespace Xv6.Ptable.Locks

open Prog Container Container.Memory Transition

inductive Lock where
  | ptable | ctable
deriving DecidableEq, Repr

inductive Panic where
  | acquire | release | schedPtableLock | schedLocks | schedRunning | initExiting | zombieExit
deriving DecidableEq, Repr

/-- The system calls. `sleep` is any other one that sleeps, with a lock `lk` that
is neither of the two. -/
inductive Sys where
  | createContainer | destroyContainer | joinContainer | leaveContainer | ps | listContainers
  | containerMalloc | fork | wait | kill | sleep
deriving DecidableEq, Repr

/-- Where `kill` returns to. -/
inductive Killer where
  | sys
  | destroy (id : Id) (i : Nat)
deriving DecidableEq

inductive Pc where
  /-- User space, and kernel code that is not modelled. -/
  | user
  | panic (e : Panic)
  /-- After an access outside the tables. -/
  | fault
  /-- The system call is about to return. -/
  | ret (f : Sys) (r : Int)
  -- `createContainer`
  | create | createScan | createEnd (r : Int)
  -- `sys_destroy_container`
  | destroy (id : Int) | destroyTest (id : Id) (live : Bool)
  -- `destroyContainer`
  | destroyEnter (id : Id) | destroyClear (id : Id) | destroyLeave (id : Id)
  | scanEnter (id : Id) (i : Nat) | scan (id : Id) (i : Nat)
  | scanLeave (id : Id) (i : Nat) (pid : Int) | scanEnd
  | kill (k : Killer) (pid : Int) | killScan (k : Killer) (pid : Int)
  | killEnd (k : Killer) (r : Int)
  -- `addProcessToContainer`
  | join (id : Int) | add (pid id : Int) | addScan (pid id : Int) | addEnd
  -- `removeProcessFromContainer`
  | leave | remove (pid : Int) | removeScan (pid : Int) | removeEnd
  | ps | psHelper (containerID : Int) | psScan (containerID : Int) | psEnd
  | list | listScan
  | malloc (numBytes : Int) | mallocEnter (numBytes pid : Int)
  | mallocScan (numBytes pid : Int) (i : Nat) | mallocEnd
  -- `allocproc`
  | allocproc | allocScan | allocFail | allocEnd (np : Slot) | allocStack (np : Slot)
  | allocContext (np : Slot)
  | forkCopy (np : Slot) | forkParent (np : Slot) | forkEnter (np : Slot) (pid : Int)
  | forkStart (np : Slot) (pid : Int) | forkEnd (pid : Int)
  | wait | waitLoop | waitSched | waitTidy | waitEnd (r : Int)
  | exit | exitEnter | exitPass | exitSched | zombieExit
  | sleep (chan : Chan) | sleepState (chan : Chan) | sleepSched | sleepTidy | sleepEnd
  | forkret
  /-- The timer interrupt, in a process that was at `back`. -/
  | yield (back : Pc) | yieldState (back : Pc) | yieldSched (back : Pc) | yieldEnd (back : Pc)
  /-- `wakeup`, from an interrupt or from other kernel code. -/
  | wakeup (chan : Chan) (back : Pc) | wakeupScan (chan : Chan) (back : Pc) | wakeupEnd (back : Pc)
deriving DecidableEq

structure Data where
  proc : Table
  nextpid : Int
  initproc : Slot
  kernel : Kernel

def Data.setProc (d : Data) (q : Slot) (x : Proc) : Data := { d with proc := set d.proc q x }

/-- An access to the tables gets the outcome of the `kalloc` or `copyuvm` before
it. -/
inductive Instr where
  | acquire (l : Lock) (next : Pc)
  | release (l : Lock) (next : Pc)
  | access (f : Bool → Data → Data × Pc)
  /-- `p->context->eip = forkret` -/
  | context (np : Slot) (next : Pc)
  | sched (next : Pc)
  /-- Nothing happens here without a system call. -/
  | none

def Killer.back (k : Killer) (r : Int) : Pc :=
  match k with
  | .sys => .ret .kill r
  | .destroy id i => .scanEnter id (i + 1)

/-- One round of the loop of `container_malloc` in the process `p`. -/
def mallocRound (p : Slot) (numBytes pid : Int) (i : Nat) (d : Data) : Data × Pc :=
  if h : i < NCONT then
    if (d.proc p).containerID = i then
      match Memory.containerMalloc (Fin.mk i h).val numBytes pid d.kernel with
      | (.ok _, k) => ({ d with kernel := k }, .mallocScan numBytes pid (i + 1))
      | (.error _, k) => ({ d with kernel := k }, .fault)
    else (d, .mallocScan numBytes pid (i + 1))
  else (d, .mallocEnd)

/-- The loop of `wait` in the process `p`, up to `sched`. -/
def waitRound (p : Slot) (d : Data) : Data × Pc :=
  match zombieChild d.proc p with
  | some q => (d.setProc q (d.proc q).reap, .waitEnd (d.proc q).pid)
  | none =>
    if ¬ HasKids d.proc p ∨ (d.proc p).killed then (d, .waitEnd (-1))
    else (d.setProc p ((d.proc p).sleep (.proc p)), .waitSched)

/-- The loop of `destroyContainer`, from the process in slot `i` on. -/
def scanRound (id : Id) (i : Nat) (d : Data) : Data × Pc :=
  match nextMember d.proc id.val i with
  | some q => (d, .scanLeave id q.val (d.proc q).pid)
  | none => (d, .scanEnd)

def allocRound (d : Data) : Data × Pc :=
  match unusedSlot d.proc with
  | some np =>
    ({ d.setProc np ((d.proc np).alloc d.nextpid) with nextpid := succPid d.nextpid },
      .allocEnd np)
  | none => (d, .allocFail)

/-- The code, as it runs in the process `p`. -/
def code (p : Slot) : Pc → Instr
  | .user | .panic _ | .fault | .ret _ _ => .none
  | .create => .acquire .ctable .createScan
  | .createScan => .access fun _ d =>
    match d.kernel.create with
    | (some id, k) => ({ d with kernel := k }, .createEnd id.val)
    | (none, k) => ({ d with kernel := k }, .createEnd (-1))
  | .createEnd r => .release .ctable (.ret .createContainer r)
  | .destroy id => .access fun _ d =>
    match entry id with
    | some id => (d, .destroyTest id (d.kernel.tables.containers id))
    | none => (d, .fault)
  | .destroyTest id live => .access fun _ d =>
    let t := d.kernel.tables
    (if live then
      { d with kernel := { d.kernel with tables := { t with
          containers := set t.containers id false } } }
    else d, .destroyEnter id)
  | .destroyEnter id => .acquire .ctable (.destroyClear id)
  | .destroyClear id => .access fun _ d =>
    ({ d with kernel := d.kernel.destroy id }, .destroyLeave id)
  | .destroyLeave id => .release .ctable (.scanEnter id 0)
  | .scanEnter id i => .acquire .ptable (.scan id i)
  | .scan id i => .access fun _ d => scanRound id i d
  | .scanLeave id i pid => .release .ptable (.kill (.destroy id i) pid)
  | .scanEnd => .release .ptable (.ret .destroyContainer 0)
  | .kill k pid => .acquire .ptable (.killScan k pid)
  | .killScan k pid => .access fun _ d =>
    ({ d with proc := Ptable.kill pid d.proc },
      .killEnd k (if (slotOf d.proc pid).isSome then 0 else -1))
  | .killEnd k r => .release .ptable (k.back r)
  | .join id => .access fun _ d => (d, .add (d.proc p).pid id)
  | .add pid id => .acquire .ptable (.addScan pid id)
  | .addScan pid id => .access fun _ d =>
    ({ d with proc := addProcessToContainer pid id d.proc }, .addEnd)
  | .addEnd => .release .ptable (.ret .joinContainer 0)
  | .leave => .access fun _ d => (d, .remove (d.proc p).pid)
  | .remove pid => .acquire .ptable (.removeScan pid)
  | .removeScan pid => .access fun _ d =>
    ({ d with proc := removeProcessFromContainer pid d.proc }, .removeEnd)
  | .removeEnd => .release .ptable (.ret .leaveContainer 0)
  | .ps => .access fun _ d => (d, .psHelper (d.proc p).containerID)
  | .psHelper containerID => .acquire .ptable (.psScan containerID)
  -- the loops of `ps` and `list_containers` only print
  | .psScan _ => .access fun _ d => (d, .psEnd)
  | .psEnd => .release .ptable (.ret .ps 0)
  | .list => .acquire .ptable .listScan
  | .listScan => .access fun _ d => (d, .ret .listContainers 0)
  | .malloc numBytes => .access fun _ d => (d, .mallocEnter numBytes (d.proc p).pid)
  | .mallocEnter numBytes pid => .acquire .ctable (.mallocScan numBytes pid 0)
  | .mallocScan numBytes pid i => .access fun _ d => mallocRound p numBytes pid i d
  | .mallocEnd => .release .ctable (.ret .containerMalloc 0)
  | .allocproc => .acquire .ptable .allocScan
  | .allocScan => .access fun _ d => allocRound d
  | .allocFail => .release .ptable (.ret .fork (-1))
  | .allocEnd np => .release .ptable (.allocStack np)
  | .allocStack np => .access fun ok d =>
    if ok then (d, .allocContext np)
    else (d.setProc np ((d.proc np).setState .unused), .ret .fork (-1))
  | .allocContext np => .context np (.forkCopy np)
  | .forkCopy np => .access fun ok d =>
    if ok then (d, .forkParent np)
    else (d.setProc np ((d.proc np).setState .unused), .ret .fork (-1))
  | .forkParent np => .access fun _ d =>
    (d.setProc np { d.proc np with parent := some p }, .forkEnter np (d.proc np).pid)
  | .forkEnter np pid => .acquire .ptable (.forkStart np pid)
  | .forkStart np pid => .access fun _ d => (d.setProc np (d.proc np).start, .forkEnd pid)
  | .forkEnd pid => .release .ptable (.ret .fork pid)
  | .wait => .acquire .ptable .waitLoop
  | .waitLoop => .access fun _ d => waitRound p d
  | .waitSched => .sched .waitTidy
  | .waitTidy => .access fun _ d => (d.setProc p (d.proc p).tidy, .waitLoop)
  | .waitEnd r => .release .ptable (.ret .wait r)
  | .exit => .access fun _ d => (d, if p = d.initproc then .panic .initExiting else .exitEnter)
  | .exitEnter => .acquire .ptable .exitPass
  | .exitPass => .access fun _ d =>
    ({ d with proc := exitTable d.initproc p d.proc }, .exitSched)
  | .exitSched => .sched .zombieExit
  | .zombieExit => .access fun _ d => (d, .panic .zombieExit)
  | .sleep chan => .acquire .ptable (.sleepState chan)
  | .sleepState chan => .access fun _ d => (d.setProc p ((d.proc p).sleep chan), .sleepSched)
  | .sleepSched => .sched .sleepTidy
  | .sleepTidy => .access fun _ d => (d.setProc p (d.proc p).tidy, .sleepEnd)
  | .sleepEnd => .release .ptable (.ret .sleep 0)
  | .forkret => .release .ptable .user
  | .yield back => .acquire .ptable (.yieldState back)
  | .yieldState back => .access fun _ d =>
    (d.setProc p ((d.proc p).setState .runnable), .yieldSched back)
  | .yieldSched back => .sched (.yieldEnd back)
  | .yieldEnd back => .release .ptable back
  | .wakeup chan back => .acquire .ptable (.wakeupScan chan back)
  | .wakeupScan chan back => .access fun _ d =>
    ({ d with proc := wakeup1 (some chan) d.proc }, .wakeupEnd back)
  | .wakeupEnd back => .release .ptable back

/-- The system calls with their arguments. What `argint` leaves in the argument
when it fails is any `int`; only `sys_kill` looks at its result. -/
inductive Call where
  | createContainer
  | destroyContainer (id : Int)
  | joinContainer (id : Int)
  | leaveContainer | ps | listContainers
  | containerMalloc (numBytes : Int)
  | fork | wait
  | kill (pid : Option Int)
  | exit
  | sleep (chan : Chan)
deriving DecidableEq

def Call.start : Call → Pc
  | .createContainer => .create
  | .destroyContainer id => .destroy id
  | .joinContainer id => .join id
  | .leaveContainer => .leave
  | .ps => .ps
  | .listContainers => .list
  | .containerMalloc numBytes => .malloc numBytes
  | .fork => .allocproc
  | .wait => .wait
  | .kill (some pid) => .kill .sys pid
  | .kill none => .ret .kill (-1)
  | .exit => .exit
  | .sleep chan => .sleep chan

/-- What an interrupt handler calls. -/
inductive Handler where
  | yield
  | wakeup (chan : Chan)
deriving DecidableEq

def Handler.start : Handler → Pc → Pc
  | .yield, back => .yield back
  | .wakeup chan, back => .wakeup chan back

/-- The process is in an interrupt handler or has stopped. -/
def Pc.Masked : Pc → Prop
  | .panic _ | .fault | .yield _ | .yieldState _ | .yieldSched _ | .yieldEnd _ | .wakeup _ _
  | .wakeupScan _ _ | .wakeupEnd _ => True
  | _ => False

instance : DecidablePred Pc.Masked := fun pc => by
  cases pc <;> unfold Pc.Masked <;> infer_instance

/-- Where the `scheduler` of a CPU is. In `wake` an interrupt came before it took
the lock; `entering` says where. -/
inductive SchedPc where
  | look (con : Id)
  | enter (con : Id)
  | scan (con : Id) (i : Nat)
  | run (con : Id) (i : Nat)
  | leave (con : Id)
  | wake (chan : Chan) (con : Id) (entering : Bool)
  | wakeScan (chan : Chan) (con : Id) (entering : Bool)
  | wakeEnd (con : Id) (entering : Bool)
  | panic (e : Panic)
deriving DecidableEq

/-- `entry` is for the statements only: the locks that the CPU held when the
process left user space. -/
structure Machine (C : Type) where
  data : Data
  lock : Lock → Option C
  ncli : C → Nat
  cur : C → Option Slot
  sched : C → SchedPc
  pc : Slot → Pc
  entry : Slot → Lock → Bool

/-- Any tables, with every process about to start in `forkret` and every CPU about
to enter `scheduler`. -/
def boot (C : Type) (d : Data) : Machine C where
  data := d
  lock _ := none
  ncli _ := 0
  cur _ := none
  sched _ := .look 0
  pc _ := .forkret
  entry _ _ := false

inductive Act where
  | run (ok : Bool)
  | call (k : Call)
  | interrupt (h : Handler)
deriving DecidableEq

section Steps

variable {C : Type} [DecidableEq C]

namespace Machine

variable (s : Machine C)

def goto (p : Slot) (pc : Pc) : Machine C := { s with pc := set s.pc p pc }

def setSched (c : C) (pc : SchedPc) : Machine C := { s with sched := set s.sched c pc }

/-- `acquire` by the CPU, once the lock is free. -/
def take (c : C) (l : Lock) : Machine C :=
  { s with lock := set s.lock l (some c), ncli := set s.ncli c (s.ncli c + 1) }

def give (c : C) (l : Lock) : Machine C :=
  { s with lock := set s.lock l none, ncli := set s.ncli c (s.ncli c - 1) }

def held (c : C) (l : Lock) : Bool := s.lock l = some c

/-- The process leaves user space. -/
def leaveUser (c : C) (p : Slot) (pc : Pc) : Machine C :=
  { s.goto p pc with entry := set s.entry p (s.held c) }

end Machine

def SchedPc.back : SchedPc → SchedPc
  | .run con i => .scan con (i + 1)
  | pc => pc

/-- The process `p` executes its next instruction on CPU `c`. In `acquire` a CPU
spins while another one has the lock. -/
def run (s : Machine C) (c : C) (p : Slot) (ok : Bool) : Option (Machine C) :=
  match code p (s.pc p) with
  | .acquire l next =>
    if s.lock l = some c then some (s.goto p (.panic .acquire))
    else if s.lock l = none then some ((s.take c l).goto p next)
    else none
  | .release l next =>
    if s.lock l = some c then some ((s.give c l).goto p next)
    else some (s.goto p (.panic .release))
  | .access f => some ({ s with data := (f ok s.data).1 }.goto p (f ok s.data).2)
  | .context np next =>
    some { s with
      pc := set (set s.pc np .forkret) p next
      entry := set s.entry np fun _ => false }
  | .sched next =>
    if s.lock .ptable ≠ some c then some (s.goto p (.panic .schedPtableLock))
    else if s.ncli c ≠ 1 then some (s.goto p (.panic .schedLocks))
    else if (s.data.proc p).state = .running then some (s.goto p (.panic .schedRunning))
    else some { (s.goto p next).setSched c (s.sched c).back with cur := set s.cur c none }
  | .none =>
    match s.pc p with
    | .ret _ _ => some (s.goto p .user)
    | _ => none

/-- The scheduler of CPU `c` goes on. -/
def schedule (s : Machine C) (c : C) : Option (Machine C) :=
  let acquire (next : SchedPc) : Option (Machine C) :=
    if s.lock .ptable = some c then some (s.setSched c (.panic .acquire))
    else if s.lock .ptable = none then some ((s.take c .ptable).setSched c next)
    else none
  let release (next : SchedPc) : Option (Machine C) :=
    if s.lock .ptable = some c then some ((s.give c .ptable).setSched c next)
    else some (s.setSched c (.panic .release))
  match s.sched c with
  | .look con =>
    some (s.setSched c
      (if s.data.kernel.tables.state con = .cwaiting then .enter con else .look (con + 1)))
  | .enter con => acquire (.scan con 0)
  | .scan con i =>
    match slotAt i with
    | none => some (s.setSched c (.leave con))
    | some q =>
      let x := s.data.proc q
      if x.containerID = con.val ∧ x.state = .runnable then
        some { s.setSched c (.run con i) with
          data := s.data.setProc q (x.setState .running)
          cur := set s.cur c (some q) }
      else some (s.setSched c (.scan con (i + 1)))
  | .leave con => release (.look (con + 1))
  | .wake chan con entering => acquire (.wakeScan chan con entering)
  | .wakeScan chan con entering =>
    some { s.setSched c (.wakeEnd con entering) with
      data := { s.data with proc := wakeup1 (some chan) s.data.proc } }
  | .wakeEnd con entering => release (if entering then .enter con else .look con)
  | .run _ _ | .panic _ => none

/-- An interrupt in the process `p`: from user space interrupts are always on,
in the kernel when no lock is held. -/
def interrupt (s : Machine C) (c : C) (p : Slot) (h : Handler) : Option (Machine C) :=
  if s.pc p = .user then some (s.leaveUser c p (h.start .user))
  else if s.ncli c = 0 ∧ ¬ (s.pc p).Masked then some (s.goto p (h.start (s.pc p)))
  else none

/-- One step on CPU `c`. Without a process only a handler that does not `yield`
runs. -/
def step (s : Machine C) : C × Act → Option (Machine C)
  | (c, .run ok) =>
    match s.cur c with
    | some p => run s c p ok
    | none => schedule s c
  | (c, .call k) =>
    match s.cur c with
    | some p => if s.pc p = .user then some (s.leaveUser c p k.start) else none
    | none => none
  | (c, .interrupt h) =>
    match s.cur c, h with
    | some p, h => interrupt s c p h
    | none, .wakeup chan =>
      match s.sched c with
      | .look con => some (s.setSched c (.wake chan con false))
      | .enter con => some (s.setSched c (.wake chan con true))
      | _ => none
    | none, .yield => none

end Steps

end Xv6.Ptable.Locks
