import Xv6.Lib.Prog
import Xv6.Lib.Transition

/-!
`umalloc.c`, the allocator of user programs. Memory is looked at as headers:
`mem a` is the header at address `a`. Addresses and sizes are `uint`s; the
loops are run for a number of rounds, and have no result if they need more.

What `sbrk` answers is an input: `none` if it fails, and otherwise how far above
the memory given out so far the new memory begins.
-/

namespace Xv6.Umalloc

open Prog

/-- `sizeof(Header)` -/
def HEADER : Nat := 8

structure Header where
  ptr : Nat
  size : Nat
deriving DecidableEq, Repr

/-- A `uint` that was assigned `n`. -/
def uint (n : Nat) : Nat := n % 2 ^ 32

/-- `p + n` for a pointer to a header. -/
def advance (p n : Nat) : Nat := uint (p + HEADER * n)

/-- `regions` are the memory from `sbrk`, for the proofs only; `brk` is its
end. -/
structure Heap where
  mem : Nat → Header
  freep : Nat
  brk : Nat
  regions : List (Nat × Nat)

namespace Heap

variable (h : Heap)

def ptr (p : Nat) : Nat := (h.mem p).ptr

def size (p : Nat) : Nat := (h.mem p).size

def setPtr (p q : Nat) : Heap := { h with mem := set h.mem p ⟨q, h.size p⟩ }

def setSize (p n : Nat) : Heap := { h with mem := set h.mem p ⟨h.ptr p, n⟩ }

@[simp] theorem ptr_setPtr_self (p q : Nat) : (h.setPtr p q).ptr p = q := by
  simp [ptr, setPtr]

theorem ptr_setPtr_of_ne {p a : Nat} (q : Nat) (ha : a ≠ p) : (h.setPtr p q).ptr a = h.ptr a := by
  simp [ptr, setPtr, set_of_ne _ _ ha]

@[simp] theorem size_setPtr (p q a : Nat) : (h.setPtr p q).size a = h.size a := by
  by_cases ha : a = p
  · subst ha
    simp [size, setPtr]
  · simp [size, setPtr, set_of_ne _ _ ha]

@[simp] theorem ptr_setSize (p n a : Nat) : (h.setSize p n).ptr a = h.ptr a := by
  by_cases ha : a = p
  · subst ha
    simp [ptr, setSize]
  · simp [ptr, setSize, set_of_ne _ _ ha]

@[simp] theorem size_setSize_self (p n : Nat) : (h.setSize p n).size p = n := by
  simp [size, setSize]

theorem size_setSize_of_ne {p a : Nat} (n : Nat) (ha : a ≠ p) :
    (h.setSize p n).size a = h.size a := by
  simp [size, setSize, set_of_ne _ _ ha]

/-- Where the loop of `free` stops. -/
def Between (bp p : Nat) : Prop :=
  (p < bp ∧ bp < h.ptr p) ∨ (h.ptr p ≤ p ∧ (p < bp ∨ bp < h.ptr p))

instance (bp p : Nat) : Decidable (h.Between bp p) := inferInstanceAs (Decidable (_ ∨ _))

def search (bp : Nat) : Nat → Nat → Option Nat
  | 0, _ => none
  | rounds + 1, p => if h.Between bp p then some p else search bp rounds (h.ptr p)

/-- `bp` takes in the block at `q` if it ends there, and points to it otherwise. -/
def joinNext (bp q : Nat) : Heap :=
  if advance bp (h.size bp) = q then
    (h.setSize bp (uint (h.size bp + h.size q))).setPtr bp (h.ptr q)
  else h.setPtr bp q

/-- The block at `p` takes in that at `bp` if it ends there, and points to it
otherwise. -/
def joinPrev (bp p : Nat) : Heap :=
  if advance p (h.size p) = bp then
    (h.setSize p (uint (h.size p + h.size bp))).setPtr p (h.ptr bp)
  else h.setPtr p bp

/-- The block at `bp` goes after the one at `p`. -/
def insert (bp p : Nat) : Heap :=
  { (h.joinNext bp (h.ptr p)).joinPrev bp p with freep := p }

def free (rounds ap : Nat) : Option Heap := do
  let bp := uint (ap + (2 ^ 32 - HEADER))
  let p ← h.search bp rounds h.freep
  return h.insert bp p

theorem free_keeps {h h' : Heap} {rounds ap : Nat} (hfree : h.free rounds ap = some h') :
    h'.brk = h.brk ∧ h'.regions = h.regions := by
  obtain ⟨p, -, hp⟩ := Option.bind_eq_some_iff.mp hfree
  cases hp
  unfold insert joinPrev joinNext
  split <;> split <;> exact ⟨rfl, rfl⟩

/-- `sbrk(n)`: the old end of the memory, unless it fails. -/
def sbrk (answer : Option Nat) (n : Int) : Option (Nat × Heap) :=
  match answer with
  | none => none
  | some gap =>
    let p := h.brk + gap
    if 0 ≤ n then
      if p + n.toNat < 2 ^ 32 then
        some (p, { h with brk := p + n.toNat, regions := h.regions ++ [(p, p + n.toNat)] })
      else none
    else if n.natAbs ≤ p then
      some (p, { h with
        brk := p - n.natAbs
        regions := h.regions.map fun r => (r.1, min r.2 (p - n.natAbs)) })
    else some (p, h)

/-- A null pointer if there is no memory. -/
def morecore (rounds nu : Nat) (answer : Option Nat) : Option (Nat × Heap) :=
  let nu := if nu < 4096 then 4096 else nu
  let n := uint (nu * HEADER)
  match h.sbrk answer (if n < 2 ^ 31 then n else (n : Int) - 2 ^ 32) with
  | none => some (0, h)
  | some (p, h) => do
    let h ← (h.setSize p nu).free rounds (advance p 1)
    return (h.freep, h)

/-- `nunits` units from the end of the block at `p`, or all of it. -/
def take (nunits prevp p : Nat) : Nat × Heap :=
  if h.size p = nunits then
    (advance p 1, { h.setPtr prevp (h.ptr p) with freep := prevp })
  else
    let h := h.setSize p (h.size p - nunits)
    let p := advance p (h.size p)
    (advance p 1, { h.setSize p nunits with freep := prevp })

/-- The loop of `malloc`. The answers of `sbrk` are used one after the other;
after the last it fails. -/
def scan (nunits : Nat) : Nat → Heap → Nat → Nat → List (Option Nat) → Option (Nat × Heap)
  | 0, _, _, _, _ => none
  | rounds + 1, h, prevp, p, answers =>
    if nunits ≤ h.size p then some (h.take nunits prevp p)
    else if p = h.freep then do
      let (p, h) ← h.morecore rounds nunits (answers.headD none)
      if p = 0 then return (0, h)
      else scan nunits rounds h p (h.ptr p) answers.tail
    else scan nunits rounds h p (h.ptr p) answers

/-- The list with `base` only. -/
def init (base : Nat) : Heap := { h with mem := set h.mem base ⟨base, 0⟩, freep := base }

def malloc (base rounds nbytes : Nat) (answers : List (Option Nat)) : Option (Nat × Heap) :=
  let nunits := uint (nbytes + HEADER - 1) / HEADER + 1
  let h := if h.freep = 0 then h.init base else h
  scan nunits rounds h h.freep (h.ptr h.freep) answers

end Heap

/-- A block that a program has: `n` bytes were asked for. -/
structure Alloc where
  ptr : Nat
  n : Nat
deriving DecidableEq, Repr

structure State where
  heap : Heap
  live : List Alloc

/-- `store`: the program writes to its own memory. -/
inductive Act where
  | malloc (n : Nat) (answers : List (Option Nat))
  | free (ptr : Nat)
  | store (a : Nat) (x : Header)

/-- `sbrk` gives out memory above the static data. -/
def start (base : Nat) (mem : Nat → Header) : State where
  heap := { mem := mem, freep := 0, brk := base + HEADER, regions := [] }
  live := []

def Alloc.Owns (x : Alloc) (a : Nat) : Prop := x.ptr ≤ a ∧ a < x.ptr + x.n

instance (x : Alloc) (a : Nat) : Decidable (x.Owns a) := inferInstanceAs (Decidable (_ ∧ _))

def step (base rounds : Nat) (s : State) : Act → Option State
  | .malloc n answers => do
    let (ptr, h) ← s.heap.malloc base rounds n answers
    return ⟨h, if ptr = 0 then s.live else ⟨ptr, n⟩ :: s.live⟩
  | .free ptr =>
    match s.live.find? (fun x => x.ptr = ptr) with
    | none => none
    | some x => do
      let h ← s.heap.free rounds ptr
      return ⟨h, s.live.erase x⟩
  | .store a x =>
    if ∃ y ∈ s.live, y.Owns a then
      some { s with heap := { s.heap with mem := set s.heap.mem a x } }
    else none

end Xv6.Umalloc
