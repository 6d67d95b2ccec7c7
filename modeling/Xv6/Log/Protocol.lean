import Xv6.Param
import Xv6.Lib.Transition

/-!
The group-commit protocol of `log.c` as a step function over any number of
processes, each running `begin_op; log_write*; end_op` again and again. A step
is one `log.lock` critical section, one unlocked test, or one block transfer of
`commit`. In `log_write` the capacity test runs before the lock is taken, so
the test and the append are two steps, with other processes in between.
-/

namespace Xv6.LogProtocol

open Transition

/-- Why the kernel stopped. The first three are panics; the last is the store
of `log_write` past the end of `lh.block`, after which C promises nothing. -/
inductive Halt where
  | tooBigTransaction
  | logWriteOutsideTrans
  | logCommitting
  | blockOverrun
deriving DecidableEq

/-- Where a process is. `mine` are the distinct blocks the operation has logged
so far; no step reads them, they are there to state what an operation did. -/
inductive Pc where
  | idle
  | sleeping
  | woken
  | inOp (mine : Finset Nat)
  | logging (mine : Finset Nat) (b : Nat)
  | commit
  | writeLog (tail : Nat)
  | writeHead
  | install (tail : Nat)
  | clear
  | eraseHead
  | finish
deriving DecidableEq

inductive Act where
  | beginOp
  | logWrite (b : Nat)
  | append (b : Nat)
  | endOp
  | commit
  | clear
  | finish
deriving DecidableEq

/-- The process is between its `begin_op` and its `end_op`. -/
def Pc.InOp : Pc → Prop
  | .inOp _ | .logging _ _ => True
  | _ => False

/-- The process is inside `commit`, up to the section that ends it. -/
def Pc.InCommit : Pc → Prop
  | .commit | .writeLog _ | .writeHead | .install _ | .clear | .eraseHead | .finish => True
  | _ => False

/-- The blocks the running operation has logged. -/
def Pc.mine : Pc → Finset Nat
  | .inOp mine | .logging mine _ => mine
  | _ => ∅

instance : DecidablePred Pc.InOp := fun pc => by
  cases pc <;> unfold Pc.InOp <;> infer_instance

instance : DecidablePred Pc.InCommit := fun pc => by
  cases pc <;> unfold Pc.InCommit <;> infer_instance

/-- The shared fields of `struct log` and the position of every process. `lh`
is `lh.block[0..n)`. -/
structure State (P : Type) where
  lh : List Nat
  outstanding : Int
  committing : Bool
  pc : P → Pc
  halt : Option Halt

def init (P : Type) : State P := ⟨[], 0, false, fun _ => .idle, none⟩

section Steps

variable {P : Type} [DecidableEq P]

def State.goto (s : State P) (p : P) (pc : Pc) : State P :=
  { s with pc := Function.update s.pc p pc }

/-- `wakeup(&log)`: every sleeper will test again. -/
def State.wakeup (s : State P) : State P :=
  { s with pc := fun q => if s.pc q = .sleeping then .woken else s.pc q }

/-- One turn of the loop in `begin_op`, with `log.lock` held. -/
def beginOp (s : State P) (p : P) : State P :=
  if s.committing then
    s.goto p .sleeping
  else if (s.lh.length : Int) + (s.outstanding + 1) * MAXOPBLOCKS > LOGSIZE then
    s.goto p .sleeping
  else
    { s with outstanding := s.outstanding + 1 }.goto p (.inOp ∅)

/-- The tests of `log_write`, made without the lock. -/
def logWriteCheck (size : Nat) (s : State P) (p : P) (mine : Finset Nat) (b : Nat) : State P :=
  if s.lh.length ≥ LOGSIZE ∨ (s.lh.length : Int) ≥ (size : Int) - 1 then
    { s with halt := some .tooBigTransaction }
  else if s.outstanding < 1 then
    { s with halt := some .logWriteOutsideTrans }
  else
    s.goto p (.logging mine b)

/-- The locked part of `log_write`: absorb the block or append it. -/
def logWriteAppend (s : State P) (p : P) (mine : Finset Nat) (b : Nat) : State P :=
  if b ∈ s.lh then
    s.goto p (.inOp (insert b mine))
  else
    { s with
      lh := s.lh ++ [b]
      halt := if s.lh.length ≥ LOGSIZE then some .blockOverrun else none }.goto p
      (.inOp (insert b mine))

/-- The critical section of `end_op`. -/
def endOp (s : State P) (p : P) : State P :=
  let s := { s with outstanding := s.outstanding - 1 }
  if s.committing then
    { s with halt := some .logCommitting }
  else if s.outstanding = 0 then
    { s with committing := true }.goto p .commit
  else
    (s.goto p .idle).wakeup

/-- The control flow of `commit`, for a header of `n` blocks. Its transfers
succeed as long as the buffer cache has a clean buffer beside the `n` dirty ones. -/
def commitNext (n : Nat) : Pc → Option Pc
  | .commit => some (if 0 < n then .writeLog 0 else .finish)
  | .writeLog tail => some (if tail < n then .writeLog (tail + 1) else .writeHead)
  | .writeHead => some (.install 0)
  | .install tail => some (if tail < n then .install (tail + 1) else .clear)
  | .eraseHead => some .finish
  | _ => none

/-- The section of `end_op` after `commit` returns. -/
def finishCommit (s : State P) (p : P) : State P :=
  ({ s with committing := false }.goto p .idle).wakeup

/-- One step of process `p`. Nothing is enabled once the kernel has stopped. -/
def step (size : Nat) (s : State P) : P × Act → Option (State P)
  | (p, a) =>
    if s.halt.isSome then none
    else match a, s.pc p with
      | .beginOp, .idle | .beginOp, .woken => some (beginOp s p)
      | .logWrite b, .inOp mine => some (logWriteCheck size s p mine b)
      | .append b, .logging mine b' => if b = b' then some (logWriteAppend s p mine b) else none
      | .endOp, .inOp _ => some (endOp s p)
      | .commit, pc => (commitNext s.lh.length pc).map (s.goto p)
      | .clear, .clear => some ({ s with lh := [] }.goto p .eraseHead)
      | .finish, .finish => some (finishCommit s p)
      | _, _ => none

/-- Everything a step can do, with the guard it passed. -/
inductive Step (size : Nat) (s : State P) : P × Act → State P → Prop where
  | sleep (p : P) (hpc : s.pc p = .idle ∨ s.pc p = .woken) :
      Step size s (p, .beginOp) (s.goto p .sleeping)
  | admitted (p : P) (hpc : s.pc p = .idle ∨ s.pc p = .woken) (hc : s.committing = false)
      (hroom : (s.lh.length : Int) + (s.outstanding + 1) * MAXOPBLOCKS ≤ LOGSIZE) :
      Step size s (p, .beginOp)
        ({ s with outstanding := s.outstanding + 1 }.goto p (.inOp ∅))
  | tooBig (p : P) (b : Nat) (mine : Finset Nat) (hpc : s.pc p = .inOp mine)
      (hfull : LOGSIZE ≤ s.lh.length ∨ (size : Int) - 1 ≤ s.lh.length) :
      Step size s (p, .logWrite b) { s with halt := some .tooBigTransaction }
  | outside (p : P) (b : Nat) (mine : Finset Nat) (hpc : s.pc p = .inOp mine)
      (hout : s.outstanding < 1) :
      Step size s (p, .logWrite b) { s with halt := some .logWriteOutsideTrans }
  | check (p : P) (b : Nat) (mine : Finset Nat) (hpc : s.pc p = .inOp mine)
      (hcap : s.lh.length < LOGSIZE) (hroom : (s.lh.length : Int) < (size : Int) - 1) :
      Step size s (p, .logWrite b) (s.goto p (.logging mine b))
  | absorb (p : P) (b : Nat) (mine : Finset Nat) (hpc : s.pc p = .logging mine b)
      (hmem : b ∈ s.lh) :
      Step size s (p, .append b) (s.goto p (.inOp (insert b mine)))
  | append (p : P) (b : Nat) (mine : Finset Nat) (hpc : s.pc p = .logging mine b)
      (hnew : b ∉ s.lh) (h : Option Halt) (hh : h = none ∨ h = some .blockOverrun) :
      Step size s (p, .append b)
        ({ s with lh := s.lh ++ [b], halt := h }.goto p (.inOp (insert b mine)))
  | endPanic (p : P) (mine : Finset Nat) (hpc : s.pc p = .inOp mine) (hc : s.committing = true) :
      Step size s (p, .endOp)
        { s with outstanding := s.outstanding - 1, halt := some .logCommitting }
  | endLast (p : P) (mine : Finset Nat) (hpc : s.pc p = .inOp mine) (hc : s.committing = false)
      (hlast : s.outstanding = 1) :
      Step size s (p, .endOp)
        ({ s with outstanding := s.outstanding - 1, committing := true }.goto p .commit)
  | endOther (p : P) (mine : Finset Nat) (hpc : s.pc p = .inOp mine) (hc : s.committing = false)
      (hmore : s.outstanding ≠ 1) :
      Step size s (p, .endOp)
        ({ s with outstanding := s.outstanding - 1 }.goto p .idle).wakeup
  | commit (p : P) (pc : Pc) (hnext : commitNext s.lh.length (s.pc p) = some pc) :
      Step size s (p, .commit) (s.goto p pc)
  | clear (p : P) (hpc : s.pc p = .clear) :
      Step size s (p, .clear) ({ s with lh := [] }.goto p .eraseHead)
  | finish (p : P) (hpc : s.pc p = .finish) :
      Step size s (p, .finish) (finishCommit s p)

theorem step_cases {size : Nat} {s s' : State P} {l : P × Act}
    (h : step size s l = some s') : s.halt = none ∧ Step size s l s' := by
  obtain ⟨p, a⟩ := l
  simp only [step] at h
  split_ifs at h with hhalt
  refine ⟨by simpa using hhalt, ?_⟩
  split at h
  · rename_i hpc
    cases h
    unfold beginOp
    split_ifs with hc hfull
    · exact .sleep p (Or.inl hpc)
    · exact .sleep p (Or.inl hpc)
    · exact .admitted p (Or.inl hpc) (by simpa using hc) (by omega)
  · rename_i hpc
    cases h
    unfold beginOp
    split_ifs with hc hfull
    · exact .sleep p (Or.inr hpc)
    · exact .sleep p (Or.inr hpc)
    · exact .admitted p (Or.inr hpc) (by simpa using hc) (by omega)
  · rename_i b mine hpc
    cases h
    unfold logWriteCheck
    split_ifs with hfull hout
    · exact .tooBig p b mine hpc (by omega)
    · exact .outside p b mine hpc hout
    · exact .check p b mine hpc (by omega) (by omega)
  · rename_i b mine b' hpc
    split_ifs at h with hb
    subst hb
    cases h
    unfold logWriteAppend
    split_ifs with hmem hfull
    · exact .absorb p b mine hpc hmem
    · exact .append p b mine hpc hmem _ (Or.inr rfl)
    · exact .append p b mine hpc hmem _ (Or.inl rfl)
  · rename_i mine hpc
    cases h
    simp only [endOp]
    split_ifs with hc hlast
    · exact .endPanic p mine hpc hc
    · exact .endLast p mine hpc (by simpa using hc) (by omega)
    · exact .endOther p mine hpc (by simpa using hc) (by omega)
  · obtain ⟨pc, hnext, rfl⟩ := Option.map_eq_some_iff.mp h
    exact .commit p pc hnext
  · rename_i hpc
    cases h
    exact .clear p hpc
  · rename_i hpc
    cases h
    exact .finish p hpc
  · cases h

end Steps

end Xv6.LogProtocol
