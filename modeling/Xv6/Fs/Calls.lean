import Xv6.Fs.Sysfile

/-!
What `fork`, `exit` and `wait` do to the descriptors and working directories of
processes, and runs: system calls of several processes, one after the other. A
call that has to wait for another process stands in a run where it returns.
-/

namespace Xv6.Fs

open Prog

/-- An index of the process table. -/
abbrev Slot := Fin NPROC

section Process

@[simps]
def Proc.setPid (x : Proc Slot) (pid : Int) : Proc Slot := { x with pid := pid }

/-- The last stores of `fork` to the child. -/
@[simps]
def Proc.start (x : Proc Slot) (parent : Slot) : Proc Slot :=
  { x with state := .live, parent := some parent, containerID := 0 }

@[simps]
def Proc.zombie (x : Proc Slot) : Proc Slot := { x with state := .zombie }

/-- What `wait` does to a zombie. -/
@[simps]
def Proc.reap (x : Proc Slot) : Proc Slot := { x with state := .unused, pid := 0, parent := none }

@[simps]
def Proc.join (x : Proc Slot) (id : Int) : Proc Slot := { x with containerID := id }

/-- A child of `p` becomes one of `init`. -/
def Proc.pass (x : Proc Slot) (p initproc : Slot) : Proc Slot :=
  if x.parent = some p then { x with parent := some initproc } else x

/-- Whether `allocproc` gets a kernel stack and `copyuvm` its pages. -/
structure ForkMemory where
  kstack : Bool
  copyuvm : Bool

def copyFd (p np : Slot) (fd : Fin NOFILE) : KernelM Slot Unit := do
  let x ← gets fun k => k.proc p
  match x.ofile fd with
  | none => return ()
  | some f => do
    filedup f
    setOfile np fd (some f)

/-- The child's descriptors and working directory; `filedup` and `idup`. -/
def shareFiles (p np : Slot) : KernelM Slot Unit := do
  forEach (copyFd p np) (List.finRange NOFILE)
  match ← gets fun k => (k.proc p).cwd with
  | none => fail .nullPointer
  | some cwd => do
    let ip ← idup cwd
    setCwd np (some ip)

def fork (p : Slot) (memory : ForkMemory) : KernelM Slot Int := do
  let k ← gets id
  match (List.finRange NPROC).find? (fun q => (k.proc q).state = .unused) with
  | none => return -1
  | some np => do
    modify fun k => { k with nextpid := k.nextpid + 1 }
    setProc np ((k.proc np).setPid k.nextpid)
    if memory.kstack = false ∨ memory.copyuvm = false then
      return -1
    else do
      shareFiles p np
      let x ← gets fun k => k.proc np
      setProc np (x.start p)
      return k.nextpid

/-- The first zombie among the children is freed. -/
def wait (p : Slot) (killed : Bool) : KernelM Slot Int := do
  let k ← gets id
  match (List.finRange NPROC).find? (fun q =>
      decide ((k.proc q).parent = some p) && decide ((k.proc q).state = .zombie)) with
  | some q => do
    setProc q (k.proc q).reap
    return (k.proc q).pid
  | none =>
    if (∀ q, (k.proc q).parent ≠ some p) ∨ killed = true then
      return -1
    else
      fail .waits

def joinContainer (p : Slot) (id : Int) : KernelM Slot Int := do
  let x ← gets fun k => k.proc p
  setProc p (x.join id)
  return 0

def passChildren (p : Slot) : KernelM Slot Unit :=
  modify fun k => { k with proc := fun q => (k.proc q).pass p k.initproc }

variable {σ : Type} (o : Ops σ Slot) (p : Slot)

def closeFd (fd : Fin NOFILE) : Prog σ Panic Unit := do
  let x ← o.kernel (gets fun k => k.proc p)
  match x.ofile fd with
  | none => return ()
  | some f => do
    fileclose o p f
    o.kernel (setOfile p fd none)

/-- `exit` once the files are closed. -/
def exitRest : Prog σ Panic Int := do
  o.kernel beginOp
  putCwd o p
  o.kernel endOp
  o.kernel (setCwd p none)
  o.kernel (passChildren p)
  let x ← o.kernel (gets fun k => k.proc p)
  o.kernel (setProc p x.zombie)
  return 0

/-- `exit` does not return; the result stands for that. -/
def exit : Prog σ Panic Int := do
  let initproc ← o.kernel (gets Kernel.initproc)
  panicIf (p = initproc) .initExiting
  forEach (closeFd o p) (List.finRange NOFILE)
  exitRest o p

end Process

/-! ### Runs -/

inductive Call where
  | open (path : List UInt8) (omode : UInt32)
  | pipe (want : Option Page)
  | dup (fd : Fin NOFILE)
  | close (fd : Fin NOFILE) (mem : Int)
  | write (fd : Fin NOFILE) (src : Nat → UInt8) (n : Nat) (mem pipewrite : Int)
  | link (old new : List UInt8)
  | unlink (path : List UInt8)
  | mkdir (path : List UInt8)
  | mknod (path : List UInt8) (major minor : Int)
  | chdir (path : List UInt8)
  | exec (vm : Vm) (path : List UInt8)
  | fork (memory : ForkMemory)
  | exit
  | wait (killed : Bool)
  | join (id : Int)
  | leave

/-- The tables after `userinit`: the first process in the root directory. -/
def userinit (console : Nat → Nat → Int × (Nat → UInt8)) : Kernel Slot where
  icache ip :=
    if ip = 0 then
      { dev := ROOTDEV, inum := ROOTINO, ref := 1, lock := none, valid := false, containerID := 0 }
    else { dev := 0, inum := 0, ref := 0, lock := none, valid := false, containerID := 0 }
  ftable _ :=
    { type := .none, ref := 0, readable := false, writable := false, pipe := none, ip := none,
      off := 0 }
  pipes _ := none
  proc q :=
    if q = 0 then
      { state := .live, pid := 1, parent := none, cwd := some 0, ofile := fun _ => none,
        containerID := 0 }
    else
      { state := .unused, pid := 0, parent := none, cwd := none, ofile := fun _ => none,
        containerID := 0 }
  initproc := 0
  nextpid := 2
  outstanding := 0
  console := console
  consoleReads := 0
  history := []
  made := []

section Runs

variable {σ : Type} (o : Ops σ Slot)

def callBody (p : Slot) : Call → Prog σ Panic Int
  | .open path omode => sysOpen o p path omode
  | .pipe want => do return if (← sysPipe o p want).isSome then 0 else -1
  | .dup fd => o.kernel (sysDup p fd)
  | .close fd mem => sysClose o p fd mem
  | .write fd src n mem pipewrite => sysWrite o p fd src n mem pipewrite
  | .link old new => sysLink o p old new
  | .unlink path => sysUnlink o p path
  | .mkdir path => sysMkdir o p path
  | .mknod path major minor => sysMknod o p path major minor
  | .chdir path => sysChdir o p path
  | .exec vm path => exec o p vm path
  | .fork memory => o.kernel (fork p memory)
  | .exit => exit o p
  | .wait killed => o.kernel (wait p killed)
  | .join id => o.kernel (joinContainer p id)
  | .leave => o.kernel (joinContainer p 0)

/-- Only a process that exists makes a call. -/
def call (p : Slot) (c : Call) : Prog σ Panic Int := do
  let x ← o.kernel (gets fun k => k.proc p)
  panicIf (x.state ≠ .live) .notRunning
  callBody o p c

/-- The state after a call that returns. -/
def callStep (s : σ) (l : Slot × Call) : Option σ :=
  match call o l.1 l.2 s with
  | (.ok _, s') => some s'
  | (.error _, _) => none

/-- System calls of several processes, one after the other. -/
def calls : List (Slot × Call) → Prog σ Panic (List Int)
  | [] => return []
  | (p, c) :: cs => do
    let r ← call o p c
    let rs ← calls cs
    return r :: rs

end Runs

end Xv6.Fs
