import Xv6.Fs.File

/-!
The system calls of `sysfile.c`, and the part of `exec` that reads the program
file. A path argument is one that `argstr` accepted, a buffer one that `argptr`
accepted.
-/

namespace Xv6.Fs

open Prog ByteSeq

section Descriptors

variable {P : Type} [DecidableEq P]

def fdalloc (p : P) (f : Fin NFILE) : KernelM P (Option (Fin NOFILE)) := do
  let x ← gets fun k => k.proc p
  match (List.finRange NOFILE).find? (fun fd => (x.ofile fd).isNone) with
  | none => return none
  | some fd =>
    setOfile p fd (some f)
    return some fd

def sysDup (p : P) (fd : Fin NOFILE) : KernelM P Int := do
  let x ← gets fun k => k.proc p
  match x.ofile fd with
  | none => return -1
  | some f => do
    match ← fdalloc p f with
    | none => return -1
    | some fd => do
      filedup f
      return fd.val

end Descriptors

section Calls

variable {σ P : Type} [DecidableEq P] (o : Ops σ P) (p : P)

/-- `f->ip->containerID`. The `ip` of a file that was never an inode is null,
and the word at this offset of the user's memory, `mem`, is read instead. -/
def fileOwner (f : Fin NFILE) (mem : Int) : KernelM P Int := do
  let k ← gets id
  match (k.ftable f).ip with
  | none => return mem
  | some ip => return (k.icache ip).containerID

def sysWrite (fd : Fin NOFILE) (src : Nat → UInt8) (n : Nat) (mem pipewrite : Int) :
    Prog σ Panic Int := do
  let x ← o.kernel (gets fun k => k.proc p)
  match x.ofile fd with
  | none => return -1
  | some f => do
    let owner ← o.kernel (fileOwner f mem)
    if owner = 0 then
      filewrite o p f src n pipewrite
    else if x.containerID ≠ owner then
      return -1
    else
      filewrite o p f src n pipewrite

def sysClose (fd : Fin NOFILE) (mem : Int) : Prog σ Panic Int := do
  let x ← o.kernel (gets fun k => k.proc p)
  match x.ofile fd with
  | none => return -1
  | some f => do
    let owner ← o.kernel (fileOwner f mem)
    if x.containerID ≠ owner then
      return -1
    else do
      o.kernel (setOfile p fd none)
      fileclose o p f
      return 0

/-- `end_op(); return r;` -/
def endWith (r : Int) : Prog σ Panic Int := do
  o.kernel endOp
  return r

/-- `iunlockput(ip); end_op(); return r;` -/
def putEnd (ip : Ip) (r : Int) : Prog σ Panic Int := do
  iunlockput o p ip
  endWith o r

def sysLink (old new : List UInt8) : Prog σ Panic Int := do
  o.kernel beginOp
  match ← namei o p old with
  | none => endWith o (-1)
  | some ip => do
    ilock o p ip
    let m ← o.fields ip
    if m.type = T_DIR then
      putEnd o p ip (-1)
    else do
      o.update ip (fun m => { m with nlink := m.nlink + 1 })
      iunlock o p ip
      let e ← o.kernel (entry ip)
      let linked ← (do
        match ← nameiparent o p new with
        | none => return false
        | some (dp, name) => do
          ilock o p dp
          let de ← o.kernel (entry dp)
          if de.dev ≠ e.dev then do
            iunlockput o p dp
            return false
          else do
            let r ← dirlink o p dp name e.inum
            iunlockput o p dp
            return (decide (0 ≤ r)))
      if linked then do
        iput o p ip
        endWith o 0
      else do
        ilock o p ip
        o.update ip (fun m => { m with nlink := m.nlink - 1 })
        putEnd o p ip (-1)

def isdirempty (dp : Ip) : Prog σ Panic Bool := do
  let m ← o.fields dp
  let live ← first (fun i => do
    let (r, de) ← readi o p dp (DIRENT * i) DIRENT
    panicIf (r ≠ DIRENT) .isdiremptyReadi
    if deInum de ≠ 0 then
      return some ()
    else
      return none) (rounds m.size - 2) 2
  return live.isNone

def sysUnlink (path : List UInt8) : Prog σ Panic Int := do
  o.kernel beginOp
  match ← nameiparent o p path with
  | none => endWith o (-1)
  | some (dp, name) => do
    ilock o p dp
    let removed ← (do
      if namecmp (cbyte name) (cbyte dot) = 0 ∨ namecmp (cbyte name) (cbyte dotdot) = 0 then
        return false
      else do
        match ← dirlookup o p dp name with
        | none => return false
        | some (ip, off) => do
          ilock o p ip
          let m ← o.fields ip
          panicIf (m.nlink < 1) .unlinkNlink
          let empty ← (if m.type = T_DIR then isdirempty o p ip else pure true)
          if empty then do
            let r ← writei o p dp (fun _ => 0) off DIRENT
            panicIf (r ≠ DIRENT) .unlinkWritei
            when (m.type = T_DIR)
              (o.update dp (fun m => { m with nlink := m.nlink - 1 }))
            iunlockput o p dp
            o.update ip (fun m => { m with nlink := m.nlink - 1 })
            iunlockput o p ip
            return true
          else do
            iunlockput o p ip
            return false)
    if removed then endWith o 0 else putEnd o p dp (-1)

/-- The end of `create`, once the new inode is marked. -/
def fillCreated (dp ip : Ip) (name : Name) (inum dinum : Nat) (type major minor : Int) :
    Prog σ Panic (Option Ip) := do
  o.update ip (fun m => { m with major := major, minor := minor, nlink := 1 })
  when (type = T_DIR) do
    o.update dp (fun m => { m with nlink := m.nlink + 1 })
    let r ← dirlink o p ip dot inum
    panicIf (r < 0) .createDots
    let r ← dirlink o p ip dotdot dinum
    panicIf (r < 0) .createDots
  let r ← dirlink o p dp name inum
  panicIf (r < 0) .createDirlink
  iunlockput o p dp
  return some ip

/-- The new or existing inode, locked. -/
def create (path : List UInt8) (type major minor : Int) : Prog σ Panic (Option Ip) := do
  match ← nameiparent o p path with
  | none => return none
  | some (dp, name) => do
    ilock o p dp
    match ← dirlookup o p dp name with
    | some (ip, _) => do
      iunlockput o p dp
      ilock o p ip
      let m ← o.fields ip
      if type = T_FILE ∧ m.type = T_FILE then
        return some ip
      else do
        iunlockput o p ip
        return none
    | none => do
      let d ← o.kernel (entry dp)
      let ip ← ialloc o d.dev type
      ilock o p ip
      let e ← o.kernel (entry ip)
      let x ← o.kernel (gets fun k => k.proc p)
      o.kernel (setEntry ip { e with containerID := x.containerID })
      o.kernel (recordMade ⟨e.dev, e.inum, x.containerID⟩)
      fillCreated o p dp ip name e.inum d.inum type major minor

/-- `map` of `sysfile.c`: the character that marks a container. -/
def map (n : Int) : UInt8 := if n = 0 then 0 else UInt8.ofNat (ofSigned 1 (48 + n))

/-- The path that `sys_open` opens for a process of container `cid`. -/
def newPath (cid : Int) (path : List UInt8) : List UInt8 :=
  if strncmp (cbyte dot) (cbyte path) 1 0 = 0 then dot
  else path ++ (if map cid = 0 then [] else [map cid])

/-- The inode that `sys_open` opens without `O_CREATE`, locked. -/
def openExisting (path : List UInt8) (omode : UInt32) : Prog σ Panic (Option Ip) := do
  match ← namei o p path with
  | none => return none
  | some ip => do
    ilock o p ip
    let m ← o.fields ip
    if m.type = T_DIR ∧ omode ≠ O_RDONLY then do
      iunlockput o p ip
      return none
    else
      return some ip

/-- The inode that `sys_open` opens, locked. -/
def openPath (path : List UInt8) (omode : UInt32) : Prog σ Panic (Option Ip) :=
  if omode &&& O_CREATE ≠ 0 then create o p path T_FILE 0 0 else openExisting o p path omode

def sysOpen (path : List UInt8) (omode : UInt32) : Prog σ Panic Int := do
  let x ← o.kernel (gets fun k => k.proc p)
  o.kernel beginOp
  match ← openPath o p (newPath x.containerID path) omode with
  | none => endWith o (-1)
  | some ip => do
    match ← o.kernel filealloc with
    | none => putEnd o p ip (-1)
    | some f => do
      match ← o.kernel (fdalloc p f) with
      | none => do
        fileclose o p f
        putEnd o p ip (-1)
      | some fd => do
        iunlock o p ip
        o.kernel endOp
        o.kernel (openInode f ip (omode &&& O_WRONLY == 0)
          (omode &&& O_WRONLY != 0 || omode &&& O_RDWR != 0))
        return fd.val

/-- What `sys_mkdir` and `sys_mknod` have in common. -/
def putCreated (path : List UInt8) (type major minor : Int) : Prog σ Panic Int := do
  o.kernel beginOp
  match ← create o p path type major minor with
  | none => endWith o (-1)
  | some ip => putEnd o p ip 0

def sysMkdir (path : List UInt8) : Prog σ Panic Int := putCreated o p path T_DIR 0 0

def sysMknod (path : List UInt8) (major minor : Int) : Prog σ Panic Int :=
  putCreated o p path T_DEV major minor

def sysChdir (path : List UInt8) : Prog σ Panic Int := do
  o.kernel beginOp
  match ← namei o p path with
  | none => endWith o (-1)
  | some ip => do
    ilock o p ip
    let m ← o.fields ip
    if m.type ≠ T_DIR then
      putEnd o p ip (-1)
    else do
      iunlock o p ip
      putCwd o p
      o.kernel endOp
      o.kernel (setCwd p (some ip))
      return 0

/-- The descriptors, if `sys_pipe` returns 0. -/
def sysPipe (want : Option Page) : Prog σ Panic (Option (Fin NOFILE × Fin NOFILE)) := do
  match ← pipealloc o p want with
  | none => return none
  | some (rf, wf) => do
    match ← o.kernel (fdalloc p rf) with
    | none => closePair o p rf wf
    | some fd0 => do
      match ← o.kernel (fdalloc p wf) with
      | none => do
        o.kernel (setOfile p fd0 none)
        closePair o p rf wf
      | some fd1 => return some (fd0, fd1)

/-! ### `exec` -/

def PGSIZE : Nat := 4096

/-- What the virtual memory functions answer during one `exec`: whether
`setupkvm` gets a page, what the `i`-th `allocuvm` returns, and the result of
the part after the program is loaded. -/
structure Vm where
  setupkvm : Bool
  allocuvm : Nat → Nat
  finish : Int

/-- Did `loaduvm` read all pages of the segment? -/
def loaduvm (ip : Ip) (offset sz : Nat) : Prog σ Panic Bool := do
  let short ← first (fun i => do
    let n := min (sz - i * PGSIZE) PGSIZE
    let (r, _) ← readi o p ip ((offset + i * PGSIZE) % 2 ^ 32) n
    if r ≠ n then
      return some ()
    else
      return none) ((sz + (PGSIZE - 1)) / PGSIZE) 0
  return short.isNone

/-- One round of the loop over the program headers; `some ()` is `goto bad`. -/
def loadSegment (vm : Vm) (ip : Ip) (phoff i : Nat) : Prog σ Panic (Option Unit) := do
  let (r, ph) ← readi o p ip ((phoff + 32 * i) % 2 ^ 32) 32
  let word (k : Nat) : Nat := leNat (fun j => ph (4 * k + j)) 4
  if r ≠ 32 then
    return some ()
  else if word 0 ≠ 1 then
    return none
  else if word 5 < word 4 ∨ (word 2 + word 5) % 2 ^ 32 < word 2 ∨ vm.allocuvm i = 0 ∨
      word 2 % PGSIZE ≠ 0 then
    return some ()
  else do
    let loaded ← loaduvm o p ip (word 1) (word 4)
    return if loaded then none else some ()

def exec (vm : Vm) (path : List UInt8) : Prog σ Panic Int := do
  o.kernel beginOp
  match ← namei o p path with
  | none => endWith o (-1)
  | some ip => do
    ilock o p ip
    let bad ← (do
      let (r, elf) ← readi o p ip 0 52
      if r ≠ 52 ∨ leNat elf 4 ≠ 0x464C457F ∨ vm.setupkvm = false then
        return true
      else do
        let failed ← first (loadSegment o p vm ip (leNat (fun j => elf (28 + j)) 4))
          (leNat (fun j => elf (44 + j)) 2) 0
        return failed.isSome)
    putEnd o p ip (if bad then -1 else vm.finish)

end Calls

end Xv6.Fs
