import Xv6.Vm.Basic

/-!
`syscall.c`: how system calls get their arguments from the memory of the
process. The process is its size, its stack pointer and the bytes in its
memory; what is read there is recorded, address by address, so that it can be
compared with the size.
-/

namespace Xv6.Syscall

open Prog Vm

structure Proc where
  sz : Nat
  esp : Nat
  mem : Nat → UInt8

/-- A computation that reads the memory of the process; the state is what it has
read. -/
abbrev ReadM := Prog (List Nat) Empty

variable (p : Proc)

/-- `*s` for a pointer to `char`. -/
def load (s : Nat) : ReadM UInt8 := do
  modify fun reads => reads ++ [s]
  return p.mem s

/-- `*(int*)addr`. -/
def loadInt (addr : Nat) : ReadM Int := do
  let b0 ← load p addr
  let b1 ← load p (uint (addr + 1))
  let b2 ← load p (uint (addr + 2))
  let b3 ← load p (uint (addr + 3))
  return ByteSeq.toSigned 4 (ByteSeq.leNat (fun i => [b0, b1, b2, b3].getD i 0) 4)

def fetchint (addr : Nat) : ReadM (Option Int) :=
  if p.sz ≤ addr ∨ p.sz < uint (addr + 4) then
    return none
  else
    return some (← loadInt p addr)

/-- The pointer that `fetchstr` sets and the length it returns. -/
def fetchstr (addr : Nat) : ReadM (Option (Nat × Nat)) :=
  if p.sz ≤ addr then
    return none
  else
    first (fun s => do
      if (← load p s) = 0 then
        return some (addr, s - addr)
      else
        return none) (p.sz - addr) addr

def argint (n : Nat) : ReadM (Option Int) := fetchint p (uint (p.esp + 4 + 4 * n))

/-- An `int` as the pointer it is cast to. -/
def pointer (i : Int) : Nat := ByteSeq.ofSigned 4 i

def argptr (n : Nat) (size : Int) : ReadM (Option Nat) := do
  match ← argint p n with
  | none => return none
  | some i =>
    if size < 0 ∨ p.sz ≤ pointer i ∨ p.sz < uint (pointer i + size.toNat) then
      return none
    else
      return some (pointer i)

def argstr (n : Nat) : ReadM (Option (Nat × Nat)) := do
  match ← argint p n with
  | none => return none
  | some addr => fetchstr p (pointer addr)

/-! ### What they read and what they return -/

/-- The integer in the four bytes at `addr`. -/
def intAt (addr : Nat) : Int := ByteSeq.toSigned 4 (ByteSeq.leNat (fun i => p.mem (addr + i)) 4)

/-- The bytes of a range lie inside the process. -/
def Inside (addr len : Nat) : Prop := addr + len ≤ p.sz

/-- The `n`-th argument, if its four bytes lie inside the process. -/
def argument (n : Nat) : Option Int :=
  if uint (p.esp + 4 + 4 * n) + 4 ≤ p.sz then some (intAt p (uint (p.esp + 4 + 4 * n))) else none

/-- A string with its terminating zero. -/
structure IsString (addr len : Nat) : Prop where
  inside : Inside p addr (len + 1)
  stop : p.mem (addr + len) = 0
  body : ∀ j < len, p.mem (addr + j) ≠ 0

section Specs

variable {p} {Q : Option Int → List Nat → Prop} {E : Empty → List Nat → Prop} {reads : List Nat}

/-- Everything read so far lies inside the process. -/
def Confined (p : Proc) (reads : List Nat) : Prop := ∀ a ∈ reads, a < p.sz

theorem Confined.append {more : List Nat} (h : Confined p reads) (hmore : ∀ a ∈ more, a < p.sz) :
    Confined p (reads ++ more) := by
  intro a ha
  rcases List.mem_append.mp ha with ha | ha
  · exact h a ha
  · exact hmore a ha

theorem wp_loadInt {addr : Nat} (haddr : addr + 4 ≤ 2 ^ 32) {Q : Int → List Nat → Prop}
    (hQ : Q (intAt p addr) (reads ++ [addr, addr + 1, addr + 2, addr + 3])) :
    wp (loadInt p addr) Q E reads := by
  have hword (i : Nat) (hi : i < 4) : uint (addr + i) = addr + i := by
    unfold uint
    exact Nat.mod_eq_of_lt (by omega)
  unfold loadInt load
  simp only [wp_bind, wp_modify, wp_pure]
  rw [hword 1 (by decide), hword 2 (by decide), hword 3 (by decide)]
  simpa [intAt, ByteSeq.leNat] using hQ

/-- `fetchint` reads four bytes, and succeeds exactly if they lie inside. -/
theorem wp_fetchint (hsz : p.sz < KERNBASE) {addr : Nat} (haddr : addr < 2 ^ 32)
    (hnone : p.sz < addr + 4 → Q none reads)
    (hsome : addr + 4 ≤ p.sz →
      Q (some (intAt p addr)) (reads ++ [addr, addr + 1, addr + 2, addr + 3])) :
    wp (fetchint p addr) Q E reads := by
  unfold KERNBASE at hsz
  unfold fetchint
  by_cases hin : addr + 4 ≤ p.sz
  · have hword : uint (addr + 4) = addr + 4 := Nat.mod_eq_of_lt (by omega)
    rw [if_neg (by rw [hword]; omega), wp_bind]
    exact wp_loadInt (by omega) (hsome hin)
  · have hout : p.sz ≤ addr ∨ p.sz < uint (addr + 4) := by
      by_cases hle : p.sz ≤ addr
      · exact Or.inl hle
      · refine Or.inr ?_
        unfold uint
        rw [Nat.mod_eq_of_lt (by omega)]
        omega
    rw [if_pos hout]
    exact hnone (by omega)

/-- `fetchstr` reads up to the terminating zero, or to the end of the process. -/
theorem wp_fetchstr (addr : Nat) (hreads : Confined p reads) :
    wp (fetchstr p addr) (fun r reads' => Confined p reads' ∧
      ∀ q len, r = some (q, len) ↔ q = addr ∧ IsString p addr len) E reads := by
  unfold fetchstr
  by_cases hin : p.sz ≤ addr
  · rw [if_pos hin]
    refine ⟨hreads, fun q len => iff_of_false (by simp) ?_⟩
    rintro ⟨-, hstr⟩
    have := hstr.inside
    unfold Inside at this
    omega
  · rw [if_neg hin]
    refine wp_first (p.sz - addr) addr
      (fun s reads' => Confined p reads' ∧ ∀ a, addr ≤ a → a < s → p.mem a ≠ 0)
      ⟨hreads, fun a hle hlt => absurd hlt (by omega)⟩ ?_ ?_
    · rintro s reads' hle hlt ⟨hconf, hbody⟩
      have hmore : Confined p (reads' ++ [s]) := by
        refine hconf.append fun a ha => ?_
        rw [List.mem_singleton.mp ha]
        omega
      unfold load
      simp only [wp_bind, wp_modify, wp_pure]
      refine wp_ite (fun hzero => ?_) (fun hne => ?_)
      · refine ⟨hmore, fun q len => ?_⟩
        have hend : addr + (s - addr) = s := by omega
        constructor
        · intro heq
          obtain ⟨rfl, rfl⟩ := Prod.mk.inj (Option.some.inj heq)
          refine ⟨rfl, ?_, ?_, fun j hj => hbody _ (by omega) (by omega)⟩
          · unfold Inside
            omega
          · rw [hend]
            exact hzero
        · rintro ⟨rfl, hstr⟩
          -- the zero found is the first one
          have hlen : len = s - q := by
            rcases Nat.lt_trichotomy len (s - q) with hcmp | hcmp | hcmp
            · exact absurd hstr.stop (hbody _ (by omega) (by omega))
            · exact hcmp
            · have := hstr.body (s - q) hcmp
              rw [hend] at this
              exact absurd hzero this
          rw [hlen]
      · refine ⟨hmore, fun a hle' hlt' => ?_⟩
        by_cases ha : a = s
        · rw [ha]
          exact hne
        · exact hbody a hle' (by omega)
    · rintro reads' ⟨hconf, hbody⟩
      refine ⟨hconf, fun q len => iff_of_false (by simp) ?_⟩
      rintro ⟨-, hstr⟩
      have hinside := hstr.inside
      unfold Inside at hinside
      exact hbody (addr + len) (by omega) (by omega) hstr.stop

/-- `argint` reads the four bytes of the argument. -/
theorem wp_argint (hsz : p.sz < KERNBASE) (n : Nat) (hreads : Confined p reads)
    (hQ : ∀ reads', Confined p reads' → Q (argument p n) reads') : wp (argint p n) Q E reads := by
  refine wp_fetchint hsz (Nat.mod_lt _ (by decide)) ?_ ?_
  · intro hout
    have hnone : argument p n = none := if_neg (by omega)
    rw [← hnone]
    exact hQ reads hreads
  · intro hin
    have hsome : argument p n = some (intAt p (uint (p.esp + 4 + 4 * n))) := if_pos hin
    rw [← hsome]
    refine hQ _ (hreads.append fun a ha => ?_)
    simp only [List.mem_cons, List.not_mem_nil, or_false] at ha
    omega

theorem wp_argptr (hsz : p.sz < KERNBASE) (n : Nat) {size : Int} (hsize : size < 2 ^ 31)
    (hreads : Confined p reads) :
    wp (argptr p n size) (fun r reads' => Confined p reads' ∧ ∀ q, r = some q ↔
      (∃ i, argument p n = some i ∧ pointer i = q) ∧ 0 ≤ size ∧ q < p.sz ∧
        Inside p q size.toNat) E reads := by
  unfold KERNBASE at hsz
  unfold argptr
  rw [wp_bind]
  refine wp_argint hsz n hreads fun reads' hconf => ?_
  cases harg : argument p n with
  | none => exact ⟨hconf, fun q => iff_of_false (by simp) (by simp)⟩
  | some i =>
    refine wp_ite (fun hout => ⟨hconf, fun q => iff_of_false (by simp) ?_⟩)
      (fun hin => ⟨hconf, fun q => ?_⟩)
    · rintro ⟨⟨j, hj, rfl⟩, hpos, hlt, hinside⟩
      cases hj
      unfold Inside at hinside
      have hword : uint (pointer i + size.toNat) = pointer i + size.toNat :=
        Nat.mod_eq_of_lt (by omega)
      rw [hword] at hout
      omega
    · have hword : uint (pointer i + size.toNat) = pointer i + size.toNat :=
        Nat.mod_eq_of_lt (by omega)
      rw [hword] at hin
      constructor
      · intro heq
        cases heq
        unfold Inside
        exact ⟨⟨i, rfl, rfl⟩, by omega, by omega, by omega⟩
      · rintro ⟨⟨j, hj, rfl⟩, -⟩
        cases hj
        rfl

theorem wp_argstr (hsz : p.sz < KERNBASE) (n : Nat) (hreads : Confined p reads) :
    wp (argstr p n) (fun r reads' => Confined p reads' ∧ ∀ q len, r = some (q, len) ↔
      (∃ i, argument p n = some i ∧ pointer i = q) ∧ IsString p q len) E reads := by
  unfold argstr
  rw [wp_bind]
  refine wp_argint hsz n hreads fun reads' hconf => ?_
  cases harg : argument p n with
  | none => exact ⟨hconf, fun q len => iff_of_false (by simp) (by simp)⟩
  | some i =>
    refine wp_mono (wp_fetchstr (pointer i) hconf) ?_ (fun _ _ he => he)
    rintro r reads'' ⟨hconf', hr⟩
    refine ⟨hconf', fun q len => (hr q len).trans ?_⟩
    constructor
    · rintro ⟨rfl, hstr⟩
      exact ⟨⟨i, rfl, rfl⟩, hstr⟩
    · rintro ⟨⟨j, hj, rfl⟩, hstr⟩
      cases hj
      exact ⟨rfl, hstr⟩

end Specs

/-- No argument function reads outside the process, and what they accept lies
inside it: an integer, a range of `size` bytes, a string with its terminating
zero. -/
theorem arguments_confined (hsz : p.sz < KERNBASE) :
    (∀ addr < 2 ^ 32, wp (fetchint p addr) (fun r reads => Confined p reads ∧
      ∀ v, r = some v ↔ Inside p addr 4 ∧ v = intAt p addr) (fun _ _ => False) []) ∧
    (∀ n, wp (argint p n) (fun r reads => Confined p reads ∧ r = argument p n)
      (fun _ _ => False) []) ∧
    (∀ addr, wp (fetchstr p addr) (fun r reads => Confined p reads ∧
      ∀ q len, r = some (q, len) ↔ q = addr ∧ IsString p addr len) (fun _ _ => False) []) ∧
    (∀ n size, size < 2 ^ 31 → wp (argptr p n size) (fun r reads => Confined p reads ∧
      ∀ q, r = some q ↔ (∃ i, argument p n = some i ∧ pointer i = q) ∧ 0 ≤ size ∧ q < p.sz ∧
        Inside p q size.toNat) (fun _ _ => False) []) ∧
    ∀ n, wp (argstr p n) (fun r reads => Confined p reads ∧
      ∀ q len, r = some (q, len) ↔ (∃ i, argument p n = some i ∧ pointer i = q) ∧
        IsString p q len) (fun _ _ => False) [] := by
  have hnone : Confined p [] := fun a ha => absurd ha List.not_mem_nil
  refine ⟨?_, ?_, ?_, ?_, ?_⟩
  · intro addr haddr
    refine wp_fetchint hsz haddr ?_ ?_
    · intro hout
      refine ⟨hnone, fun v => iff_of_false (by simp) ?_⟩
      rintro ⟨hin, -⟩
      unfold Inside at hin
      omega
    · intro hin
      refine ⟨hnone.append fun a ha => ?_, fun v => ?_⟩
      · simp only [List.mem_cons, List.not_mem_nil, or_false] at ha
        omega
      · rw [Option.some_inj, eq_comm]
        exact ⟨fun hv => ⟨hin, hv⟩, fun hv => hv.2⟩
  · intro n
    exact wp_argint hsz n hnone fun reads hreads => ⟨hreads, rfl⟩
  · intro addr
    exact wp_fetchstr addr hnone
  · intro n size hsize
    exact wp_argptr hsz n hsize hnone
  · intro n
    exact wp_argstr hsz n hnone

/-- A process of one page with the argument `16` on its stack, where a string of
one byte stands. -/
def smallProc : Proc where
  sz := 4096
  esp := 4000
  mem a := if a = 4004 then 16 else if a = 16 then 97 else 0

theorem arguments_confined_smallProc :
    smallProc.sz < KERNBASE ∧ (argstr smallProc 0 []).1 = .ok (some (16, 1)) ∧
      IsString smallProc 16 1 := by
  have hsz : smallProc.sz < KERNBASE := by decide
  have hrun : (argstr smallProc 0 []).1 = .ok (some (16, 1)) := by decide +kernel
  have hstr := (arguments_confined smallProc hsz).2.2.2.2 0
  unfold wp at hstr
  split at hstr
  · next r reads heq =>
      rw [heq] at hrun
      cases hrun
      exact ⟨hsz, congrArg Prod.fst heq, ((hstr.2 16 1).mp rfl).2⟩
  · exact hstr.elim

end Xv6.Syscall
