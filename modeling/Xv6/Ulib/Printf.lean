import Mathlib

/-!
Numbers as text: `printint` of `printf.c` and of `console.c`, and `atoi` of `ulib.c`.
-/

namespace Xv6.Printf

def upper : List UInt8 := [48, 49, 50, 51, 52, 53, 54, 55, 56, 57, 65, 66, 67, 68, 69, 70]

def lower : List UInt8 := [48, 49, 50, 51, 52, 53, 54, 55, 56, 57, 97, 98, 99, 100, 101, 102]

def minus : UInt8 := 45

/-- `do { buf[i++] = digits[x % base]; } while((x /= base) != 0)`, for as many rounds
as a word has bits: what `digits` is indexed with, the last digit of the number first. -/
def digitLoop (base : Nat) : Nat → Nat → List Nat
  | 0, _ => []
  | rounds + 1, x => x % base :: if x / base = 0 then [] else digitLoop base rounds (x / base)

/-- The magnitude `x` and whether a sign is printed. -/
def magnitude (xx : UInt32) (sgn : Bool) : UInt32 × Bool :=
  if sgn && decide (2 ^ 31 ≤ xx.toNat) then (-xx, true) else (xx, false)

/-- What `buf` holds before it is printed from its end. -/
def buffer (digits : List UInt8) (xx : UInt32) (base : Nat) (sgn : Bool) : List UInt8 :=
  (digitLoop base 32 (magnitude xx sgn).1.toNat).map (digits.getD · 0) ++
    if (magnitude xx sgn).2 then [minus] else []

/-- `printint` of `printf.c`. -/
def printint (xx : UInt32) (base : Nat) (sgn : Bool) : List UInt8 :=
  (buffer upper xx base sgn).reverse

/-- `printint` of `console.c`. -/
def Console.printint (xx : UInt32) (base : Nat) (sgn : Bool) : List UInt8 :=
  (buffer lower xx base sgn).reverse

/-- The loop of `atoi`; the characters after the number are not looked at. -/
def atoiLoop (n : UInt32) : List UInt8 → UInt32
  | [] => n
  | c :: s => if 48 ≤ c ∧ c ≤ 57 then atoiLoop (n * 10 + c.toUInt32 - 48) s else n

def atoi (s : List UInt8) : UInt32 := atoiLoop 0 s

/-- The number that a text denotes in the digits of a table. -/
def value (digits : List UInt8) (base : Nat) (s : List UInt8) : Nat :=
  s.foldl (fun v c => base * v + digits.idxOf c) 0

def number (digits : List UInt8) (base : Nat) : List UInt8 → Int
  | [] => 0
  | c :: s => if c = minus then -value digits base s else value digits base (c :: s)

/-- A word as an `int`, or as an unsigned number. -/
def intOf (xx : UInt32) (sgn : Bool) : Int :=
  if sgn && decide (2 ^ 31 ≤ xx.toNat) then xx.toNat - 2 ^ 32 else xx.toNat

/-- The entries are different from each other and from the sign. -/
def Table (digits : List UInt8) : Prop :=
  ∀ d < 16, digits.idxOf (digits.getD d 0) = d ∧ digits.getD d 0 ≠ minus

section Digits

variable {base x : Nat}

theorem digitLoop_lt (hbase : 0 < base) (rounds x : Nat) :
    ∀ d ∈ digitLoop base rounds x, d < base := by
  induction rounds generalizing x with
  | zero => simp [digitLoop]
  | succ rounds ih =>
    intro d hd
    rw [digitLoop, List.mem_cons] at hd
    obtain rfl | hd := hd
    · exact Nat.mod_lt x hbase
    · split at hd
      · cases hd
      · exact ih _ d hd

theorem ofDigits_digitLoop {rounds : Nat} (h : x < base ^ (rounds + 1)) :
    Nat.ofDigits base (digitLoop base (rounds + 1) x) = x := by
  induction rounds generalizing x with
  | zero =>
    have hlt : x < base := by simpa using h
    simp [digitLoop, Nat.div_eq_of_lt hlt, Nat.mod_eq_of_lt hlt]
  | succ rounds ih =>
    rw [digitLoop, Nat.ofDigits_cons]
    split
    · next h0 =>
      have hsplit := Nat.mod_add_div x base
      simp [h0] at hsplit ⊢
      exact hsplit
    · rw [ih (Nat.div_lt_of_lt_mul (by rwa [← Nat.pow_succ']))]
      exact Nat.mod_add_div x base

theorem length_digitLoop (rounds : Nat) {n : Nat} (h : x < base ^ (n + 1)) :
    (digitLoop base rounds x).length ≤ n + 1 := by
  induction rounds generalizing x n with
  | zero => simp [digitLoop]
  | succ rounds ih =>
    rw [digitLoop, List.length_cons]
    split
    · simp
    · next hne =>
      obtain _ | n := n
      · rw [Nat.zero_add, Nat.pow_one] at h
        exact absurd (Nat.div_eq_of_lt h) hne
      · exact Nat.succ_le_succ (ih (Nat.div_lt_of_lt_mul (by rwa [← Nat.pow_succ'])))

/-- The digits, the first one first. -/
theorem foldl_reverse_digitLoop {rounds : Nat} (h : x < base ^ (rounds + 1)) :
    (digitLoop base (rounds + 1) x).reverse.foldl (fun v d => base * v + d) 0 = x := by
  have hvalue := ofDigits_digitLoop h
  rw [Nat.ofDigits_eq_foldr] at hvalue
  rw [List.foldl_reverse]
  simpa [Nat.add_comm] using hvalue

end Digits

theorem value_map {digits : List UInt8} {base : Nat} (ht : Table digits) (hbase : base ≤ 16)
    {ds : List Nat} (hds : ∀ d ∈ ds, d < base) :
    value digits base (ds.map (digits.getD · 0)) = ds.foldl (fun v d => base * v + d) 0 := by
  unfold value
  rw [List.foldl_map]
  apply List.foldl_ext
  intro v d hd
  rw [(ht d ((hds d hd).trans_le hbase)).1]

theorem two_pow_le {base : Nat} (hbase : base = 10 ∨ base = 16) : 2 ^ 32 ≤ base ^ (31 + 1) := by
  obtain rfl | rfl := hbase <;> norm_num

theorem number_reverse_buffer {digits : List UInt8} (ht : Table digits) (xx : UInt32) {base : Nat}
    (hbase : base = 10 ∨ base = 16) (sgn : Bool) :
    number digits base (buffer digits xx base sgn).reverse = intOf xx sgn := by
  have hle : base ≤ 16 := by omega
  have hpos : 0 < base := by omega
  have hvalue (x : UInt32) : value digits base
      ((digitLoop base 32 x.toNat).reverse.map (digits.getD · 0)) = x.toNat := by
    rw [value_map ht hle fun d hd => digitLoop_lt hpos _ _ d (List.mem_reverse.mp hd)]
    exact foldl_reverse_digitLoop (x.toNat_lt.trans_le (two_pow_le hbase))
  unfold buffer magnitude intOf
  rw [List.reverse_append, ← List.map_reverse]
  by_cases hneg : (sgn && decide (2 ^ 31 ≤ xx.toNat)) = true
  · have hxx : 2 ^ 31 ≤ xx.toNat := by simp_all
    have hlt := xx.toNat_lt
    have hminus : (-xx).toNat = 2 ^ 32 - xx.toNat := by
      rw [UInt32.toNat_neg, show UInt32.size = 2 ^ 32 from rfl, Nat.mod_eq_of_lt (by omega)]
    simp only [hneg, if_true, List.reverse_singleton, List.singleton_append, number, hvalue]
    omega
  · simp only [hneg, Bool.false_eq_true, if_false, List.reverse_nil, List.nil_append]
    cases hds : (digitLoop base 32 xx.toNat).reverse with
    | nil => simp [digitLoop] at hds
    | cons d ds =>
      have hd : d < base := by
        apply digitLoop_lt hpos 32 xx.toNat
        rw [← List.mem_reverse, hds]
        exact List.mem_cons_self
      have hvalue' := hvalue xx
      rw [hds] at hvalue'
      rw [List.map_cons] at hvalue' ⊢
      rw [number, if_neg (ht d (hd.trans_le hle)).2, hvalue']

/-- `char buf[16]` is large enough. -/
theorem length_buffer (digits : List UInt8) (xx : UInt32) {base : Nat}
    (hbase : base = 10 ∨ base = 16) (sgn : Bool) : (buffer digits xx base sgn).length ≤ 16 := by
  have hx : (magnitude xx sgn).1.toNat < base ^ (9 + 1) := by
    refine (UInt32.toNat_lt _).trans_le ?_
    obtain rfl | rfl := hbase <;> norm_num
  have hlen := length_digitLoop 32 hx
  have hsign : (if (magnitude xx sgn).2 then [minus] else []).length ≤ 1 := by split <;> simp
  rw [buffer, List.length_append, List.length_map]
  omega

theorem atoiLoop_digits {ds : List Nat} (hds : ∀ d ∈ ds, d < 10) (v : Nat) {rest : List UInt8}
    (hrest : ∀ c ∈ rest.head?, ¬ (48 ≤ c ∧ c ≤ 57)) :
    atoiLoop (UInt32.ofNat v) (ds.map (upper.getD · 0) ++ rest) =
      UInt32.ofNat (ds.foldl (fun v d => 10 * v + d) v) := by
  induction ds generalizing v with
  | nil =>
    cases rest with
    | nil => rfl
    | cons c s => exact if_neg (hrest c rfl)
  | cons d ds ih =>
    have hd : d < 10 := hds d List.mem_cons_self
    have hchar : 48 ≤ upper.getD d 0 ∧ upper.getD d 0 ≤ 57 ∧
        (upper.getD d 0).toUInt32 = UInt32.ofNat d + 48 := by
      interval_cases d <;> decide
    rw [List.map_cons, List.cons_append, atoiLoop, if_pos ⟨hchar.1, hchar.2.1⟩, hchar.2.2,
      ← UInt32.add_assoc, UInt32.add_sub_cancel, List.foldl_cons,
      ← ih fun d' hd' => hds d' (List.mem_cons_of_mem d hd')]
    congr 1
    rw [UInt32.ofNat_add, UInt32.ofNat_mul, UInt32.mul_comm]
    rfl

/-- **Printed numbers read back.** In base 10 and 16 the digits and the sign fit into
`buf`, what `printint` prints, in the user library as in the kernel, denotes the
argument as an `int` or as an unsigned number, and `atoi` gives back the argument if it
is not negative, whatever comes after the number. -/
theorem printed_numbers_read_back (xx : UInt32) (base : Nat) (hbase : base = 10 ∨ base = 16)
    (sgn : Bool) :
    (printint xx base sgn).length ≤ 16 ∧ (Console.printint xx base sgn).length ≤ 16 ∧
    number upper base (printint xx base sgn) = intOf xx sgn ∧
    number lower base (Console.printint xx base sgn) = intOf xx sgn ∧
    (xx.toNat < 2 ^ 31 → ∀ rest : List UInt8, (∀ c ∈ rest.head?, ¬ (48 ≤ c ∧ c ≤ 57)) →
      atoi (printint xx 10 true ++ rest) = xx) := by
  refine ⟨?_, ?_, number_reverse_buffer (by unfold Table; decide) xx hbase sgn,
    number_reverse_buffer (by unfold Table; decide) xx hbase sgn, ?_⟩
  · rw [printint, List.length_reverse]
    exact length_buffer upper xx hbase sgn
  · rw [Console.printint, List.length_reverse]
    exact length_buffer lower xx hbase sgn
  · intro hxx rest hrest
    have hmag : magnitude xx true = (xx, false) := if_neg (by simpa using hxx)
    have htext : printint xx 10 true =
        (digitLoop 10 32 xx.toNat).reverse.map (upper.getD · 0) := by
      simp [printint, buffer, hmag]
    have hdigits : ∀ d ∈ (digitLoop 10 32 xx.toNat).reverse, d < 10 := fun d hd =>
      digitLoop_lt (by decide) _ _ d (List.mem_reverse.mp hd)
    rw [htext, atoi, show (0 : UInt32) = UInt32.ofNat 0 from rfl, atoiLoop_digits hdigits 0 hrest,
      foldl_reverse_digitLoop (xx.toNat_lt.trans_le (two_pow_le (Or.inl rfl))), UInt32.ofNat_toNat]

/-- The number 42, with a newline behind it, and -42 as a signed number. -/
theorem printed_numbers_read_back_42 : atoi (printint 42 10 true ++ [10]) = 42 ∧
    number upper 10 (printint (-42) 10 true) = -42 := by
  have hpos := printed_numbers_read_back 42 10 (Or.inl rfl) true
  have hneg := printed_numbers_read_back (-42) 10 (Or.inl rfl) true
  exact ⟨hpos.2.2.2.2 (by simp) [10] (by simp), hneg.2.2.1⟩

end Xv6.Printf
