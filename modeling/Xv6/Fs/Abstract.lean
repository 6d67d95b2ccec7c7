import Xv6.Fs.Kernel

/-!
The file system without a disk: a table of files, each with its fields and its
bytes, under the same inode cache. Every operation has a contract, and a use
outside it is `misuse`; `Fs/Refine.lean` shows that the bytes on the disk
implement this table for every program that stays within the contracts.
-/

namespace Xv6.Fs

open Prog

/-- A file: the bytes it would have if it were read beyond its size are kept,
as they are on the disk. -/
structure AFile where
  fields : Meta
  data : Nat → UInt8

def AFile.empty (type : Int) : AFile where
  fields := { type := type, major := 0, minor := 0, nlink := 0, size := 0 }
  data := fun _ => 0

structure AState (P : Type) where
  kernel : Kernel P
  files : Nat → AFile
  ninodes : Nat

abbrev AM (P : Type) := Prog (AState P) Panic

section

variable {P : Type}

/-- What work on the tables in memory may do to the inode cache: the entries in
use are for different inodes that exist, and an entry is valid only if it was
valid for the same inode before. -/
def Allowed (n : Nat) (k k' : Kernel P) : Prop :=
  (∀ ip, 0 < (k'.icache ip).ref →
    (k'.icache ip).dev = ROOTDEV ∧ 1 ≤ (k'.icache ip).inum ∧ (k'.icache ip).inum < n ∧
    ((k'.icache ip).valid = true → (k.icache ip).valid = true ∧ 0 < (k.icache ip).ref ∧
      (k'.icache ip).inum = (k.icache ip).inum)) ∧
  ∀ ip, 0 < (k'.icache ip).ref → ∀ jp, 0 < (k'.icache jp).ref →
    (k'.icache ip).inum = (k'.icache jp).inum → ip = jp

instance (n : Nat) (k k' : Kernel P) : Decidable (Allowed n k k') :=
  inferInstanceAs (Decidable (_ ∧ _))

/-- The fields and the bytes behind a pointer may be used: it is a reference to
a valid entry. -/
def AState.Usable (a : AState P) (ip : Ip) : Prop :=
  0 < (a.kernel.icache ip).ref ∧ (a.kernel.icache ip).valid = true

instance (a : AState P) (ip : Ip) : Decidable (a.Usable ip) :=
  inferInstanceAs (Decidable (_ ∧ _))

def AState.inum (a : AState P) (ip : Ip) : Nat := (a.kernel.icache ip).inum

/-- The file behind a pointer. -/
def AState.file (a : AState P) (ip : Ip) : AFile := a.files (a.inum ip)

def AState.setFile (a : AState P) (ip : Ip) (f : AFile) : AState P :=
  { a with files := set a.files (a.inum ip) f }

def AState.setValid (a : AState P) (ip : Ip) (v : Bool) : AState P :=
  { a with kernel := a.kernel.setEntry ip { a.kernel.icache ip with valid := v } }

def AFile.amend (f : AFile) (g : Meta → Meta) : AFile := { f with fields := f.fields.amend g }

def AFile.write (f : AFile) (src : Nat → UInt8) (off n : Nat) : AFile where
  fields := { f.fields with size := max f.fields.size (off + n) }
  data := fun o => if off ≤ o ∧ o < off + n then src (o - off) else f.data o

/-- The first inode that is free. -/
def AState.firstFree (a : AState P) : Option Nat :=
  (List.range' 1 (a.ninodes - 1)).find? (fun i => decide ((a.files i).fields.type = 0))

/-- The file system on a table of files. -/
def fileOps : Ops (AState P) P where
  kernel x := fun a =>
    match x a.kernel with
    | (.error e, k) => (.error e, { a with kernel := k })
    | (.ok r, k) =>
      if Allowed a.ninodes a.kernel k then (.ok r, { a with kernel := k })
      else (.error .misuse, a)
  alloc dev type := do
    let a ← gets id
    panicIf (dev ≠ ROOTDEV ∨ a.kernel.outstanding = 0) .misuse
    match a.firstFree with
    | none => fail .iallocNoInodes
    | some i => do
      modify fun a => { a with files := set a.files i (AFile.empty (short type)) }
      return i
  load ip := do
    let a ← gets id
    panicIf (¬ 0 < (a.kernel.icache ip).ref) .misuse
    panicIf ((a.file ip).fields.type = 0) .ilockNoType
    modify fun a => a.setValid ip true
  fields ip := do
    let a ← gets id
    panicIf (¬ a.Usable ip) .misuse
    return (a.file ip).fields
  update ip f := do
    let a ← gets id
    panicIf (¬ a.Usable ip ∨ a.kernel.outstanding = 0) .misuse
    modify fun a => a.setFile ip ((a.file ip).amend f)
  free ip := do
    let a ← gets id
    panicIf (¬ a.Usable ip ∨ a.kernel.outstanding = 0) .misuse
    modify fun a => (a.setFile ip (AFile.empty 0)).setValid ip false
  read ip off n := do
    let a ← gets id
    panicIf (¬ a.Usable ip ∨ (a.file ip).fields.type = T_DEV ∨
      (a.file ip).fields.size < off + n) .misuse
    return fun j => if j < n then (a.file ip).data (off + j) else 0
  write ip src off n := do
    let a ← gets id
    panicIf (¬ a.Usable ip ∨ (a.file ip).fields.type = T_DEV ∨ a.kernel.outstanding = 0 ∨
      (a.file ip).fields.size < off ∨ MAXFILE * BSIZE < off + n) .misuse
    modify fun a => a.setFile ip ((a.file ip).write src off n)

end

section SetValid

variable {P : Type} (a : AState P) (ip jp : Ip) (b : Bool)

theorem AState.setValid_entry : (a.setValid ip b).kernel.icache jp =
    { a.kernel.icache jp with valid := if jp = ip then b else (a.kernel.icache jp).valid } := by
  unfold AState.setValid Kernel.setEntry
  by_cases hjp : jp = ip
  · subst hjp
    simp
  · simp [set_of_ne _ _ hjp, hjp]

@[simp] theorem AState.setValid_ref :
    ((a.setValid ip b).kernel.icache jp).ref = (a.kernel.icache jp).ref := by
  rw [a.setValid_entry]

@[simp] theorem AState.setValid_dev :
    ((a.setValid ip b).kernel.icache jp).dev = (a.kernel.icache jp).dev := by
  rw [a.setValid_entry]

@[simp] theorem AState.setValid_inum : (a.setValid ip b).inum jp = a.inum jp := by
  unfold AState.inum
  rw [a.setValid_entry]

@[simp] theorem AState.setValid_icache_inum :
    ((a.setValid ip b).kernel.icache jp).inum = (a.kernel.icache jp).inum := by
  rw [a.setValid_entry]

theorem AState.setValid_valid : ((a.setValid ip b).kernel.icache jp).valid =
    if jp = ip then b else (a.kernel.icache jp).valid := by
  rw [a.setValid_entry]

end SetValid

end Xv6.Fs
