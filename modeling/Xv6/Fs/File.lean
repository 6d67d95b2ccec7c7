import Xv6.Fs.Dir

/-!
`file.c` and the parts of `pipe.c` that open and close pipes. What goes through
a pipe is the subject of `Pipe/Basic.lean`; here its page is allocated and
freed.
-/

namespace Xv6.Fs

open Prog

section Tables

variable {P : Type}

def setFile (f : Fin NFILE) (x : File) : KernelM P Unit :=
  modify fun k => { k with ftable := set k.ftable f x }

def setPipe (page : Page) (x : Option PipeEnds) : KernelM P Unit :=
  modify fun k => { k with pipes := set k.pipes page x }

def File.setRef (x : File) (ref : Int) : File := { x with ref := ref }

/-- The last reference is given up. -/
def File.shut (x : File) : File := { x with ref := 0, type := .none }

/-- The stores at the end of `sys_open`. -/
def File.asInode (x : File) (ip : Ip) (readable writable : Bool) : File :=
  { x with type := .inode, ip := some ip, off := 0, readable := readable, writable := writable }

/-- The stores of `pipealloc` to one of its two files. -/
def File.asPipe (x : File) (page : Page) (writable : Bool) : File :=
  { x with type := .pipe, pipe := some page, readable := !writable, writable := writable }

/-- `f->off += r` -/
def File.advance (x : File) (r : Nat) : File := { x with off := (x.off + r) % 2 ^ 32 }

/-- A free entry of the file table, now with one reference. -/
def filealloc : KernelM P (Option (Fin NFILE)) := do
  let t ← gets Kernel.ftable
  match (List.finRange NFILE).find? (fun f => (t f).ref == 0) with
  | none => return none
  | some f =>
    setFile f ((t f).setRef 1)
    return some f

def filedup (f : Fin NFILE) : KernelM P Unit := do
  let t ← gets Kernel.ftable
  panicIf ((t f).ref < 1) .filedup
  setFile f ((t f).setRef ((t f).ref + 1))

def openInode (f : Fin NFILE) (ip : Ip) (readable writable : Bool) : KernelM P Unit := do
  let t ← gets Kernel.ftable
  setFile f ((t f).asInode ip readable writable)
  record (.opened f (.inode ip))

def openPipe (f : Fin NFILE) (page : Page) (writable : Bool) : KernelM P Unit := do
  let t ← gets Kernel.ftable
  setFile f ((t f).asPipe page writable)
  record (.opened f (.pipe page writable))

/-- The page that `kalloc` finds, if any, is `want`; a page in use is not given
out. -/
def kalloc (want : Option Page) : KernelM P (Option Page) := do
  let k ← gets id
  match want with
  | none => return none
  | some page => if k.pipes page = none then return some page else return none

def pipeclose (page : Page) (writable : Bool) : KernelM P Unit := do
  let k ← gets id
  match k.pipes page with
  | none => fail .freedPage
  | some ends => do
    let ends := if writable then { ends with writeopen := false }
      else { ends with readopen := false }
    if ends.readopen = false ∧ ends.writeopen = false then do
      setPipe page none
      record (.kfree page)
    else
      setPipe page (some ends)

@[simps]
def Proc.setOfile (x : Proc P) (fd : Fin NOFILE) (f : Option (Fin NFILE)) : Proc P :=
  { x with ofile := set x.ofile fd f }

@[simps]
def Proc.setCwd (x : Proc P) (ip : Option Ip) : Proc P := { x with cwd := ip }

variable [DecidableEq P]

def setProc (p : P) (x : Proc P) : KernelM P Unit :=
  modify fun k => { k with proc := set k.proc p x }

def setOfile (p : P) (fd : Fin NOFILE) (f : Option (Fin NFILE)) : KernelM P Unit := do
  let x ← gets fun k => k.proc p
  setProc p (x.setOfile fd f)

def setCwd (p : P) (ip : Option Ip) : KernelM P Unit := do
  let x ← gets fun k => k.proc p
  setProc p (x.setCwd ip)

end Tables

section Files

variable {σ P : Type} [DecidableEq P] (o : Ops σ P) (p : P)

def fileclose (f : Fin NFILE) : Prog σ Panic Unit := do
  let t ← o.kernel (gets Kernel.ftable)
  panicIf ((t f).ref < 1) .fileclose
  if (t f).ref - 1 > 0 then
    o.kernel (setFile f ((t f).setRef ((t f).ref - 1)))
  else do
    o.kernel (setFile f (t f).shut)
    match (t f).type, (t f).pipe, (t f).ip with
    | .none, _, _ => return ()
    | .pipe, some page, _ => do
      o.kernel (record (.closed f (.pipe page (t f).writable)))
      o.kernel (pipeclose page (t f).writable)
    | .inode, _, some ip => do
      o.kernel beginOp
      o.kernel (record (.closed f (.inode ip)))
      iput o p ip
      o.kernel endOp
    | _, _, _ => fail .nullPointer

def closePair {α : Type} (rf wf : Fin NFILE) : Prog σ Panic (Option α) := do
  fileclose o p rf
  fileclose o p wf
  return none

/-- The two files of a new pipe, for reading and for writing. -/
def pipealloc (want : Option Page) : Prog σ Panic (Option (Fin NFILE × Fin NFILE)) := do
  match ← o.kernel filealloc with
  | none => return none
  | some f0 => do
    match ← o.kernel filealloc with
    | none => do
      fileclose o p f0
      return none
    | some f1 => do
      match ← o.kernel (kalloc want) with
      | none => closePair o p f0 f1
      | some page => do
        o.kernel (setPipe page (some ⟨true, true⟩))
        o.kernel (record (.kalloc page))
        o.kernel (openPipe f0 page false)
        o.kernel (openPipe f1 page true)
        return some (f0, f1)

/-- `iput(curproc->cwd)`. -/
def putCwd : Prog σ Panic Unit := do
  match ← o.kernel (gets fun k => (k.proc p).cwd) with
  | none => fail .nullPointer
  | some ip => iput o p ip

/-- The most that `filewrite` writes in one transaction. -/
def writeMax : Nat := (MAXOPBLOCKS - 1 - 1 - 2) / 2 * 512

/-- The loop of `filewrite` with `i` bytes written; the result is the final `i`.
Each round writes at least one byte, so `n` rounds are enough. -/
def filewriteLoop (f : Fin NFILE) (ip : Ip) (src : Nat → UInt8) (n : Nat) :
    Nat → Nat → Prog σ Panic Nat
  | 0, i => return i
  | rounds + 1, i =>
    if i < n then do
      let n1 := min (n - i) writeMax
      o.kernel beginOp
      ilock o p ip
      let t ← o.kernel (gets Kernel.ftable)
      let r ← writei o p ip (fun j => src (i + j)) (t f).off n1
      when (0 < r) (o.kernel (setFile f ((t f).advance r.toNat)))
      iunlock o p ip
      o.kernel endOp
      if r < 0 then
        return i
      else do
        panicIf (r ≠ n1) .shortFilewrite
        filewriteLoop f ip src n rounds (i + n1)
    else
      return i

/-- `pipewrite` is what that function returns for a pipe. -/
def filewrite (f : Fin NFILE) (src : Nat → UInt8) (n : Nat) (pipewrite : Int) :
    Prog σ Panic Int := do
  let t ← o.kernel (gets Kernel.ftable)
  if (t f).writable = false then
    return -1
  else
    match (t f).type, (t f).ip with
    | .pipe, _ => return pipewrite
    | .inode, some ip => do
      let i ← filewriteLoop o p f ip src n n 0
      return if i = n then n else -1
    | .inode, none => fail .nullPointer
    | .none, _ => fail .filewrite

end Files

end Xv6.Fs
