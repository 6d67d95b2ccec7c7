import Xv6.Lib.Memory

/-!
`strchr` and `memmove` of `ulib.c`.
-/

namespace Xv6.Ulib

/-- The address of the first `c` in the string at `s`, where no result at all
means that the string is longer than the rounds that are allowed. -/
def strchr (m : Memory) (c : UInt8) : Nat → Nat → Option (Option Nat)
  | 0, _ => none
  | rounds + 1, s =>
    if m s = 0 then some none
    else if m s = c then some (some s)
    else strchr m c rounds (s + 1)

/-- The loop of `memmove`, which goes up. -/
def memmove : Nat → Memory → Nat → Nat → Memory
  | 0, m, _, _ => m
  | n + 1, m, dst, src => memmove n (m.put dst (m src)) (dst + 1) (src + 1)

variable {m : Memory} {s t : List UInt8} {a : Nat} {c : UInt8}

/-- The loop goes past bytes that are neither `c` nor the end. -/
theorem strchr_skip (rounds : Nat) (h : m.bytes a s.length = s) (hnul : 0 ∉ s) (hc : c ∉ s) :
    strchr m c (s.length + rounds) a = strchr m c rounds (a + s.length) := by
  induction s generalizing a with
  | nil => rw [List.length_nil, Nat.zero_add, Nat.add_zero]
  | cons x s ih =>
    rw [List.mem_cons, not_or] at hnul hc
    obtain ⟨rfl, hrest⟩ := List.cons.inj h
    rw [List.length_cons, Nat.succ_add, strchr, if_neg (Ne.symm hnul.1), if_neg (Ne.symm hc.1),
      ih hrest hnul.2 hc.2, Nat.add_comm s.length, Nat.add_assoc]

theorem strchr_of_not_mem {rounds : Nat} (h : m.HasString a s) (hnul : 0 ∉ s) (hc : c ∉ s)
    (hrounds : s.length < rounds) : strchr m c rounds a = some none := by
  obtain ⟨rounds, rfl⟩ := Nat.exists_eq_add_of_lt hrounds
  rw [Nat.add_assoc, strchr_skip _ h.1 hnul hc, strchr, if_pos h.2]

theorem strchr_of_append {rounds : Nat} (h : m.HasString a (s ++ c :: t)) (hnul : 0 ∉ s)
    (hc : c ∉ s) (hzero : c ≠ 0) (hrounds : s.length < rounds) :
    strchr m c rounds a = some (some (a + s.length)) := by
  obtain ⟨rounds, rfl⟩ := Nat.exists_eq_add_of_lt hrounds
  obtain ⟨hs, hrest⟩ := Memory.hasString_append.mp h
  have hx : m (a + s.length) = c := (Memory.hasString_cons.mp hrest).1
  rw [Nat.add_assoc, strchr_skip _ hs hnul hc, strchr, if_neg (hx ▸ hzero), if_pos hx]

/-- A loop that goes up moves bytes down, whether or not the ranges overlap. -/
theorem memmove_apply {n dst src : Nat} (h : dst ≤ src) (x : Nat) :
    memmove n m dst src x = if dst ≤ x ∧ x < dst + n then m (src + (x - dst)) else m x := by
  induction n generalizing m dst src with
  | zero =>
    rw [memmove, if_neg (by omega)]
  | succ n ih =>
    rw [memmove, ih (by omega)]
    by_cases hx : x = dst
    · subst hx
      rw [if_neg (by omega), Memory.put_self, if_pos (by omega), Nat.sub_self, Nat.add_zero]
    · by_cases hin : dst + 1 ≤ x ∧ x < dst + 1 + n
      · rw [if_pos hin, if_pos (by omega), Memory.put_of_ne _ _ (by omega)]
        congr 1
        omega
      · rw [if_neg hin, if_neg (by omega), Memory.put_of_ne _ _ hx]

end Xv6.Ulib
