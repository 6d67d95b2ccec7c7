import Xv6.Lib.ByteSeq
import Xv6.Lib.Prog

/-!
Physical memory and page tables: `kalloc.c` and the part of `vm.c` that gets
and gives back pages.

Memory is a table of pages under the addresses the kernel sees them at, and
what the kernel keeps in it is kept there: the free list is linked through the
first words of its pages, and a page directory and its page tables are pages
of 1024 words. A pointer to a page table entry is the page and the index in it.
Machine words are natural numbers, reduced where the source's sum or difference
may leave 32 bits.
-/

namespace Xv6.Vm

open Prog

/-! ### `memlayout.h` and `mmu.h` -/

def PGSIZE : Nat := 4096
def NPDENTRIES : Nat := 1024
def NPTENTRIES : Nat := 1024

def EXTMEM : Nat := 0x100000
def PHYSTOP : Nat := 0xE000000
def DEVSPACE : Nat := 0xFE000000
def KERNBASE : Nat := 0x80000000
def KERNLINK : Nat := KERNBASE + EXTMEM

def PTE_P : Nat := 0x001
def PTE_W : Nat := 0x002
def PTE_U : Nat := 0x004

def uint (x : Nat) : Nat := x % 2 ^ 32

@[irreducible] def V2P (a : Nat) : Nat := uint (a + (2 ^ 32 - KERNBASE))
@[irreducible] def P2V (a : Nat) : Nat := uint (a + KERNBASE)

def PDX (va : Nat) : Nat := va / 2 ^ 22 % NPDENTRIES
def PTX (va : Nat) : Nat := va / 2 ^ 12 % NPTENTRIES

def PGADDR (d t o : Nat) : Nat := uint (d * 2 ^ 22 + t * 2 ^ 12 + o)

def PGROUNDUP (sz : Nat) : Nat := uint (sz + PGSIZE - 1) / PGSIZE * PGSIZE
def PGROUNDDOWN (a : Nat) : Nat := a / PGSIZE * PGSIZE

def PTE_ADDR (pte : Nat) : Nat := pte / PGSIZE * PGSIZE
def PTE_FLAGS (pte : Nat) : Nat := pte % PGSIZE

/-- `pte & PTE_P`. -/
def Present (pte : Nat) : Prop := pte &&& PTE_P ≠ 0

instance (pte : Nat) : Decidable (Present pte) := inferInstanceAs (Decidable (_ ≠ _))

/-- The linked kernel: its read-only part ends where its data begins, on a page
boundary, and all of it lies in physical memory. -/
structure Image where
  data : Nat
  kend : Nat
  data_aligned : data % PGSIZE = 0
  text : KERNLINK < data
  fits : data < KERNBASE + PHYSTOP

/-! ### Memory and its allocator -/

abbrev Page := Bytes PGSIZE

/-- What `kfree` fills a page with. -/
def junk : Page := fun _ => 1

structure Mem where
  freelist : Nat
  page : Nat → Page

/-- The messages of `panic`, and the use of a null pointer to a page table
entry. -/
inductive Panic where
  | kfree
  | remap
  | phystopTooHigh
  | copyuvmNoPte
  | copyuvmNotPresent
  | freevmNoPgdir
  | loaduvmNotAligned
  | loaduvmNoAddress
  | clearpteu
  | nullPte
deriving DecidableEq, Repr

abbrev VmM := Prog Mem Panic

/-- The word with index `i` of a page. -/
def Mem.word (m : Mem) (p i : Nat) : Nat := (m.page p).num 4 (4 * i)

def Mem.setPage (m : Mem) (p : Nat) (b : Page) : Mem := { m with page := set m.page p b }

def Mem.setWord (m : Mem) (p i v : Nat) : Mem := m.setPage p ((m.page p).setNum 4 (4 * i) v)

/-- `r->next`. -/
def Mem.next (m : Mem) (r : Nat) : Nat := m.word r 0

variable (img : Image)

def kfree (v : Nat) : VmM Unit := do
  panicIf (v % PGSIZE ≠ 0 ∨ v < img.kend ∨ PHYSTOP ≤ V2P v) .kfree
  modify fun m => m.setPage v junk
  modify fun m => m.setWord v 0 m.freelist
  modify fun m => { m with freelist := v }

def kalloc : VmM Nat := do
  let r ← gets Mem.freelist
  when (r ≠ 0) (modify fun m => { m with freelist := m.next r })
  return r

/-! ### Page tables -/

/-- The entry for `va`, as the page table it is in and its index there. -/
def walkpgdir (pgdir va : Nat) (alloc : Bool) : VmM (Option (Nat × Nat)) := do
  let pde ← gets fun m => m.word pgdir (PDX va)
  if Present pde then
    return some (P2V (PTE_ADDR pde), PTX va)
  else if alloc = false then
    return none
  else
    let pgtab ← kalloc
    if pgtab = 0 then
      return none
    else
      modify fun m => m.setPage pgtab Bytes.zero
      modify fun m => m.setWord pgdir (PDX va) (V2P pgtab ||| PTE_P ||| PTE_W ||| PTE_U)
      return some (pgtab, PTX va)

/-- The loop of `mappages`. There are as many rounds as pages in the address
space; a loop that has not met `last` by then is back at its first page. -/
def mappagesLoop (pgdir last perm : Nat) : Nat → Nat → Nat → VmM Bool
  | 0, _, _ => fail .remap
  | n + 1, a, pa => do
    match ← walkpgdir pgdir a true with
    | none => return false
    | some (pgtab, i) =>
      let pte ← gets fun m => m.word pgtab i
      panicIf (Present pte) .remap
      modify fun m => m.setWord pgtab i (pa ||| perm ||| PTE_P)
      if a = last then
        return true
      else
        mappagesLoop pgdir last perm n (uint (a + PGSIZE)) (uint (pa + PGSIZE))

/-- `false` is the source's -1. -/
def mappages (pgdir va size pa perm : Nat) : VmM Bool :=
  mappagesLoop pgdir (PGROUNDDOWN (uint (va + size + (2 ^ 32 - 1)))) perm (2 ^ 20)
    (PGROUNDDOWN va) pa

/-- Free the page of one entry, if it is present. -/
def deallocuvmPage (pgtab i : Nat) : VmM Unit := do
  let pte ← gets fun m => m.word pgtab i
  when (Present pte) do
    panicIf (PTE_ADDR pte = 0) .kfree
    kfree img (P2V (PTE_ADDR pte))
    modify fun m => m.setWord pgtab i 0

/-- The loop of `deallocuvm`; each round moves on by a page at least. -/
def deallocuvmLoop (pgdir oldsz : Nat) : Nat → Nat → VmM Unit
  | 0, _ => return ()
  | n + 1, a =>
    if a < oldsz then do
      match ← walkpgdir pgdir a false with
      | none =>
        deallocuvmLoop pgdir oldsz n
          (uint (uint (PGADDR (PDX a + 1) 0 0 + (2 ^ 32 - PGSIZE)) + PGSIZE))
      | some (pgtab, i) =>
        deallocuvmPage img pgtab i
        deallocuvmLoop pgdir oldsz n (uint (a + PGSIZE))
    else
      return ()

def deallocuvm (pgdir oldsz newsz : Nat) : VmM Nat :=
  if oldsz ≤ newsz then
    return oldsz
  else do
    deallocuvmLoop img pgdir oldsz (oldsz / PGSIZE + 1) (PGROUNDUP newsz)
    return newsz

/-- Free the page table of one entry, if it is present. -/
def freevmTable (pgdir i : Nat) : VmM Unit := do
  let pde ← gets fun m => m.word pgdir i
  when (Present pde) (kfree img (P2V (PTE_ADDR pde)))

def freevm (pgdir : Nat) : VmM Unit := do
  panicIf (pgdir = 0) .freevmNoPgdir
  let _ ← deallocuvm img pgdir KERNBASE 0
  forEach (freevmTable img pgdir) (List.range NPDENTRIES)
  kfree img pgdir

/-- A row of `kmap`. -/
structure Kmap where
  virt : Nat
  physStart : Nat
  physEnd : Nat
  perm : Nat

def kmap : List Kmap :=
  [⟨KERNBASE, 0, EXTMEM, PTE_W⟩,
   ⟨KERNLINK, V2P KERNLINK, V2P img.data, 0⟩,
   ⟨img.data, V2P img.data, PHYSTOP, PTE_W⟩,
   ⟨DEVSPACE, DEVSPACE, 0, PTE_W⟩]

def Kmap.size (k : Kmap) : Nat := uint (k.physEnd + (2 ^ 32 - k.physStart))

/-- The loop over `kmap`, up to the first row that cannot be mapped. -/
def mapKernel (pgdir : Nat) : List Kmap → VmM Bool
  | [] => return true
  | k :: ks => do
    if ← mappages pgdir k.virt k.size k.physStart k.perm then
      mapKernel pgdir ks
    else
      return false

def setupkvm : VmM Nat := do
  let pgdir ← kalloc
  if pgdir = 0 then
    return 0
  else
    modify fun m => m.setPage pgdir Bytes.zero
    panicIf (DEVSPACE < P2V PHYSTOP) .phystopTooHigh
    if ← mapKernel pgdir (kmap img) then
      return pgdir
    else
      freevm img pgdir
      return 0

/-- The loop of `allocuvm`, from page address `a` on. -/
def allocuvmLoop (pgdir oldsz newsz : Nat) : Nat → Nat → VmM Nat
  | 0, _ => return newsz
  | n + 1, a =>
    if a < newsz then do
      let mem ← kalloc
      if mem = 0 then
        let _ ← deallocuvm img pgdir newsz oldsz
        return 0
      else
        modify fun m => m.setPage mem Bytes.zero
        if ← mappages pgdir a PGSIZE (V2P mem) (PTE_W ||| PTE_U) then
          allocuvmLoop pgdir oldsz newsz n (uint (a + PGSIZE))
        else
          let _ ← deallocuvm img pgdir newsz oldsz
          kfree img mem
          return 0
    else
      return newsz

def allocuvm (pgdir oldsz newsz : Nat) : VmM Nat :=
  if KERNBASE ≤ newsz then
    return 0
  else if newsz < oldsz then
    return oldsz
  else
    allocuvmLoop img pgdir oldsz newsz (newsz / PGSIZE + 1) (PGROUNDUP oldsz)

/-- The loop of `copyuvm`; `false` is its `goto bad`. -/
def copyuvmLoop (pgdir d sz : Nat) : Nat → Nat → VmM Bool
  | 0, _ => return true
  | n + 1, i =>
    if i < sz then do
      match ← walkpgdir pgdir i false with
      | none => fail .copyuvmNoPte
      | some (pgtab, j) =>
        let pte ← gets fun m => m.word pgtab j
        panicIf (¬ Present pte) .copyuvmNotPresent
        let mem ← kalloc
        if mem = 0 then
          return false
        else
          modify fun m => m.setPage mem (m.page (P2V (PTE_ADDR pte)))
          if ← mappages d i PGSIZE (V2P mem) (PTE_FLAGS pte) then
            copyuvmLoop pgdir d sz n (uint (i + PGSIZE))
          else
            kfree img mem
            return false
    else
      return true

def copyuvm (pgdir sz : Nat) : VmM Nat := do
  let d ← setupkvm img
  if d = 0 then
    return 0
  else if ← copyuvmLoop img pgdir d sz (sz / PGSIZE + 1) 0 then
    return d
  else
    freevm img d
    return 0

/-! ### Runs of calls -/

/-- Memory, and the page directories that the kernel's processes have. -/
structure State where
  mem : Mem
  dirs : List Nat

inductive Call where
  | setupkvm
  | allocuvm (pgdir oldsz newsz : Nat)
  | deallocuvm (pgdir oldsz newsz : Nat)
  | copyuvm (pgdir sz : Nat)
  | freevm (pgdir : Nat)
deriving DecidableEq, Repr

/-- A directory that was returned belongs to the caller from then on. -/
def State.created (s : State) : Except Panic Nat × Mem → Option State
  | (.ok d, m) => some ⟨m, if d = 0 then s.dirs else d :: s.dirs⟩
  | (.error _, _) => none

/-- A call that has returned, and the directories it leaves. -/
def State.returned {α : Type} (dirs : List Nat) : Except Panic α × Mem → Option State
  | (.ok _, m) => some ⟨m, dirs⟩
  | (.error _, _) => none

/-- One call. Calls are made on the directory of a process, and no process has a
size above `KERNBASE`; a call that panics has no next state. -/
def step (s : State) : Call → Option State
  | .setupkvm => s.created (setupkvm img s.mem)
  | .allocuvm pgdir oldsz newsz =>
    if pgdir ∈ s.dirs then
      State.returned s.dirs (allocuvm img pgdir oldsz newsz s.mem)
    else none
  | .deallocuvm pgdir oldsz newsz =>
    if pgdir ∈ s.dirs ∧ oldsz ≤ KERNBASE then
      State.returned s.dirs (deallocuvm img pgdir oldsz newsz s.mem)
    else none
  | .copyuvm pgdir sz =>
    if pgdir ∈ s.dirs ∧ sz ≤ KERNBASE then s.created (copyuvm img pgdir sz s.mem) else none
  | .freevm pgdir =>
    if pgdir ∈ s.dirs then
      State.returned (s.dirs.erase pgdir) (freevm img pgdir s.mem)
    else none

end Xv6.Vm
