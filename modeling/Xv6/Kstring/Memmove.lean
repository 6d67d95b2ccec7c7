import Mathlib
import Xv6.Ulib.Strings

/-!
`memmove` of the kernel (`string.c`) and `memmove` of the user library
(`ulib.c`). The kernel chooses the direction of its loop by the two addresses.
The user library always goes up, so a move up over its own source writes bytes
that it still has to read.
-/

namespace Xv6

namespace Memory

/-- What a move is for: `n` bytes from `src` on are found at `dst` as they were,
and all else is as it was. -/
def Moves (m m' : Memory) (dst src n : Nat) : Prop :=
  ∀ x, m' x = if dst ≤ x ∧ x < dst + n then m (src + (x - dst)) else m x

/-- The `n` bytes from `a` on are their first `period` bytes over and over. -/
def Repeats (m : Memory) (a n period : Nat) : Prop :=
  ∀ j, period ≤ j → j < n → m (a + j) = m (a + (j - period))

end Memory

namespace Kstring

/-- `--p`, where a pointer has 32 bits. -/
def pred (p : Nat) : Nat := if p = 0 then 2 ^ 32 - 1 else p - 1

/-- `*--d = *--s` for `n` rounds. -/
def copyDown : Nat → Memory → Nat → Nat → Memory
  | 0, m, _, _ => m
  | n + 1, m, d, s => copyDown n (m.put (pred d) (m (pred s))) (pred d) (pred s)

/-- The loop that goes up is the one of the user library. -/
def memmove (m : Memory) (dst src n : Nat) : Memory :=
  if src < dst ∧ (src + n) % 2 ^ 32 > dst then
    copyDown n m ((dst + n) % 2 ^ 32) ((src + n) % 2 ^ 32)
  else Ulib.memmove n m dst src

/-- `memmove` of the user library takes its `n` as an `int`, and runs no round
when that is negative. -/
def userMemmove (m : Memory) (dst src n : Nat) : Memory :=
  Ulib.memmove (Int.bmod n (2 ^ 32)).toNat m dst src

variable {m : Memory} {dst src n : Nat}

/-- The end of a range may wrap, its last address does not. -/
theorem pred_end {a : Nat} (h : a + (n + 1) ≤ 2 ^ 32) : pred ((a + (n + 1)) % 2 ^ 32) = a + n := by
  unfold pred
  by_cases hlast : a + (n + 1) = 2 ^ 32
  · rw [hlast, Nat.mod_self, if_pos rfl]
    omega
  · rw [Nat.mod_eq_of_lt (by omega), if_neg (by omega)]
    rfl

theorem copyDown_succ (hd : dst + (n + 1) ≤ 2 ^ 32) (hs : src + (n + 1) ≤ 2 ^ 32) :
    copyDown (n + 1) m ((dst + (n + 1)) % 2 ^ 32) ((src + (n + 1)) % 2 ^ 32) =
      copyDown n (m.put (dst + n) (m (src + n))) ((dst + n) % 2 ^ 32) ((src + n) % 2 ^ 32) := by
  rw [copyDown, pred_end hd, pred_end hs, Nat.mod_eq_of_lt (show dst + n < 2 ^ 32 by omega),
    Nat.mod_eq_of_lt (show src + n < 2 ^ 32 by omega)]

/-- A loop that goes down moves bytes up, whether or not the ranges overlap. -/
theorem copyDown_moves (h : src ≤ dst) (hd : dst + n ≤ 2 ^ 32) :
    m.Moves (copyDown n m ((dst + n) % 2 ^ 32) ((src + n) % 2 ^ 32)) dst src n := by
  induction n generalizing m with
  | zero =>
    intro x
    rw [copyDown, if_neg (by omega)]
  | succ n ih =>
    intro x
    rw [copyDown_succ hd (by omega), ih (by omega) x]
    by_cases hx : x = dst + n
    · subst hx
      rw [if_neg (by omega), Memory.put_self, if_pos (by omega), Nat.add_sub_cancel_left]
    · by_cases hin : dst ≤ x ∧ x < dst + n
      · rw [if_pos hin, if_pos (by omega), Memory.put_of_ne _ _ (by omega)]
      · rw [if_neg hin, if_neg (by omega), Memory.put_of_ne _ _ hx]

/-- A loop that goes up takes each byte from the memory that it leaves, where it
moves bytes up. -/
theorem memmove_up (h : src < dst) (x : Nat) :
    Ulib.memmove n m dst src x =
      if dst ≤ x ∧ x < dst + n then Ulib.memmove n m dst src (src + (x - dst)) else m x := by
  induction n generalizing m dst src x with
  | zero =>
    rw [Ulib.memmove, if_neg (by omega)]
  | succ n ih =>
    rw [Ulib.memmove]
    by_cases hx : x = dst
    · -- the byte read first lies below all that is written after it
      subst hx
      rw [if_pos (by omega), Nat.sub_self, ih (by omega) x, if_neg (by omega),
        ih (by omega) (src + 0), if_neg (by omega), Memory.put_self,
        Memory.put_of_ne _ _ (by omega), Nat.add_zero]
    · rw [ih (by omega) x]
      by_cases hin : dst + 1 ≤ x ∧ x < dst + 1 + n
      · rw [if_pos hin, if_pos (by omega)]
        congr 1
        omega
      · rw [if_neg hin, if_neg (by omega), Memory.put_of_ne _ _ hx]

theorem memmove_up_inside (h : src < dst) {j : Nat} (hj : j < n) :
    Ulib.memmove n m dst src (dst + j) = Ulib.memmove n m dst src (src + j) := by
  rw [memmove_up h, if_pos (by omega), Nat.add_sub_cancel_left]

/-- The source below the destination is never written. -/
theorem memmove_up_below (h : src < dst) {j : Nat} (hj : j < dst - src) :
    Ulib.memmove n m dst src (src + j) = m (src + j) := by
  rw [memmove_up h, if_neg (by omega)]

/-- The rest of the source is the destination, `dst - src` bytes before. -/
theorem memmove_up_above (h : src < dst) {j : Nat} (hj : dst - src ≤ j) :
    Ulib.memmove n m dst src (src + j) = Ulib.memmove n m dst src (dst + (j - (dst - src))) := by
  congr 1
  omega

theorem moves_up_iff (h : src < dst) :
    m.Moves (Ulib.memmove n m dst src) dst src n ↔ m.Repeats src n (dst - src) := by
  constructor
  · intro hmoves j hge hlt
    have hread {i : Nat} (hi : i < n) : Ulib.memmove n m dst src (dst + i) = m (src + i) := by
      rw [hmoves (dst + i), if_pos (by omega), Nat.add_sub_cancel_left]
    calc m (src + j) = Ulib.memmove n m dst src (dst + j) := (hread hlt).symm
      _ = Ulib.memmove n m dst src (dst + (j - (dst - src))) := by
        rw [memmove_up_inside h hlt, memmove_up_above h hge]
      _ = m (src + (j - (dst - src))) := hread (by omega)
  · intro hrepeats
    have hread (j : Nat) : j < n → Ulib.memmove n m dst src (dst + j) = m (src + j) := by
      induction j using Nat.strongRecOn with
      | _ j ih =>
        intro hj
        rw [memmove_up_inside h hj]
        by_cases hbelow : j < dst - src
        · exact memmove_up_below h hbelow
        · have hge : dst - src ≤ j := Nat.le_of_not_lt hbelow
          rw [memmove_up_above h hge, ih _ (by omega) (by omega), hrepeats j hge hj]
    intro x
    by_cases hin : dst ≤ x ∧ x < dst + n
    · have := hread (x - dst) (by omega)
      rw [Nat.add_sub_cancel' hin.1] at this
      rw [if_pos hin, this]
    · rw [memmove_up h, if_neg hin, if_neg hin]

theorem user_moves_iff :
    m.Moves (Ulib.memmove n m dst src) dst src n ↔ dst ≤ src ∨ m.Repeats src n (dst - src) := by
  by_cases h : dst ≤ src
  · exact ⟨fun _ => Or.inl h, fun _ => Ulib.memmove_apply h⟩
  · rw [moves_up_iff (Nat.lt_of_not_le h), or_iff_right h]

/-- Where the ranges are apart nothing has to repeat. -/
theorem repeats_of_apart (h : src + n ≤ dst) : m.Repeats src n (dst - src) := by
  intro j hge hlt
  omega

theorem kernel_moves (hd : dst + n ≤ 2 ^ 32) (hs : src + n ≤ 2 ^ 32) :
    m.Moves (memmove m dst src n) dst src n := by
  unfold memmove
  by_cases h : src < dst ∧ (src + n) % 2 ^ 32 > dst
  · rw [if_pos h]
    exact copyDown_moves (Nat.le_of_lt h.1) hd
  · rw [if_neg h]
    refine user_moves_iff.mpr ?_
    by_cases hle : dst ≤ src
    · exact Or.inl hle
    · -- `dst` is the higher address and ends in the space, so `src + n` does not wrap
      rw [Nat.mod_eq_of_lt (by omega)] at h
      exact Or.inr (repeats_of_apart (by omega))

theorem userMemmove_eq (hn : n < 2 ^ 31) : userMemmove m dst src n = Ulib.memmove n m dst src := by
  have hcast : Int.bmod n (2 ^ 32) = n := by
    apply Int.bmod_eq_of_le <;> omega
  rw [userMemmove, hcast, Int.toNat_natCast]

/-- The kernel moves the bytes always. The user library, whose `n` is an `int`,
moves them where the destination is not above the source, or the ranges are
apart, or the bytes of the source repeat with the distance, and nowhere else. -/
theorem memmove_moves_iff (m : Memory) {dst src n : Nat} (hd : dst + n ≤ 2 ^ 32)
    (hs : src + n ≤ 2 ^ 32) :
    m.Moves (memmove m dst src n) dst src n ∧
      (n < 2 ^ 31 → (m.Moves (userMemmove m dst src n) dst src n ↔
        dst ≤ src ∨ src + n ≤ dst ∨ m.Repeats src n (dst - src))) := by
  refine ⟨kernel_moves hd hs, fun hn => ?_⟩
  rw [userMemmove_eq hn, user_moves_iff, or_iff_right_of_imp (a := src + n ≤ dst) repeats_of_apart]

/-- A memory in which each byte is its address. -/
def ascending : Memory := fun x => UInt8.ofNat x

theorem memmove_moves_ascending :
    ascending.Moves (memmove ascending 1 0 2) 1 0 2 ∧
      (ascending.Moves (userMemmove ascending 1 0 2) 1 0 2 ↔
        1 ≤ 0 ∨ 0 + 2 ≤ 1 ∨ ascending.Repeats 0 2 (1 - 0)) := by
  obtain ⟨hkernel, huser⟩ := memmove_moves_iff ascending (show 1 + 2 ≤ 2 ^ 32 by decide)
    (show 0 + 2 ≤ 2 ^ 32 by decide)
  exact ⟨hkernel, huser (by decide)⟩

/-- Two bytes moved up by one: the second is the first, which was just written
over it. -/
theorem userMemmove_overlap :
    userMemmove ascending 1 0 2 2 = 0 ∧ memmove ascending 1 0 2 2 = 1 ∧
      ¬ ascending.Moves (userMemmove ascending 1 0 2) 1 0 2 := by
  have huser : userMemmove ascending 1 0 2 2 = 0 := by decide
  refine ⟨huser, by decide, fun hmoves => ?_⟩
  have hsecond : userMemmove ascending 1 0 2 2 = 1 := hmoves 2
  rw [huser] at hsecond
  exact absurd hsecond (by decide)

end Kstring

end Xv6
