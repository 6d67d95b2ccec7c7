import Xv6.Lib.Prog

/-!
Memory as a map from addresses to bytes, and the strings in it.
-/

namespace Xv6

abbrev Memory := Nat → UInt8

namespace Memory

/-- The `len` bytes from `a` on. -/
def bytes (m : Memory) (a len : Nat) : List UInt8 := (List.range' a len).map m

def put (m : Memory) (a : Nat) (v : UInt8) : Memory := Prog.set m a v

/-- The number in the `n` bytes at `a`, the lowest byte first. -/
def num (m : Memory) : Nat → Nat → Nat
  | _, 0 => 0
  | a, n + 1 => (m a).toNat + 256 * num m (a + 1) n

/-- The string `s` is at `a`, with the NUL that ends it. -/
def HasString (m : Memory) (a : Nat) (s : List UInt8) : Prop :=
  m.bytes a s.length = s ∧ m (a + s.length) = 0

variable {m : Memory} {s t : List UInt8} {a : Nat} {c : UInt8}

theorem put_self (m : Memory) (a : Nat) (v : UInt8) : m.put a v a = v := Prog.set_self ..

theorem put_of_ne {x : Nat} (m : Memory) (v : UInt8) (h : x ≠ a) : m.put a v x = m x :=
  Prog.set_of_ne _ _ h

theorem put_put (m : Memory) (a : Nat) (v w : UInt8) : (m.put a v).put a w = m.put a w :=
  Prog.set_set ..

theorem bytes_cons (m : Memory) (a n : Nat) : m.bytes a (n + 1) = m a :: m.bytes (a + 1) n := rfl

theorem bytes_append (m : Memory) (a n k : Nat) :
    m.bytes a (n + k) = m.bytes a n ++ m.bytes (a + n) k := by
  unfold bytes
  rw [← List.range'_append_1, List.map_append]

theorem bytes_congr {m' : Memory} {n : Nat} (h : ∀ i < n, m' (a + i) = m (a + i)) :
    m'.bytes a n = m.bytes a n := by
  unfold bytes
  apply List.map_congr_left
  intro x hx
  obtain ⟨hge, hlt⟩ := List.mem_range'_1.mp hx
  have := h (x - a) (by omega)
  rwa [Nat.add_sub_cancel' hge] at this

theorem hasString_cons : m.HasString a (c :: s) ↔ m a = c ∧ m.HasString (a + 1) s := by
  unfold HasString
  rw [List.length_cons, bytes_cons, List.cons.injEq, and_assoc, Nat.add_assoc, Nat.add_comm 1]

theorem hasString_append : m.HasString a (s ++ t) ↔
    m.bytes a s.length = s ∧ m.HasString (a + s.length) t := by
  unfold HasString
  rw [List.length_append, bytes_append, Nat.add_assoc]
  constructor
  · rintro ⟨h, hnul⟩
    obtain ⟨hs, ht⟩ := List.append_inj h (by simp [bytes])
    exact ⟨hs, ht, hnul⟩
  · rintro ⟨hs, ht, hnul⟩
    exact ⟨by rw [hs, ht], hnul⟩

theorem HasString.congr {m' : Memory} (h : m.HasString a s)
    (heq : ∀ i ≤ s.length, m' (a + i) = m (a + i)) : m'.HasString a s :=
  ⟨(bytes_congr fun i hi => heq i (Nat.le_of_lt hi)).trans h.1, (heq _ (Nat.le_refl _)).trans h.2⟩

end Memory

end Xv6
