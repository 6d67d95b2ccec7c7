import Mathlib.Tactic

/-!
Fixed-length byte sequences with in-place updates and little-endian numbers.
Reads and writes take an arbitrary offset, as a cast of a byte buffer to a
packed record does; a read beyond the end gives zero bytes and a write beyond
the end changes nothing. Nothing here depends on a particular length.
-/

namespace ByteSeq

def leByte (v i : Nat) : UInt8 := UInt8.ofNat (v / 256 ^ i)

/-- The number whose little-endian bytes are `f 0, …, f (w - 1)`. -/
def leNat (f : Nat → UInt8) : Nat → Nat
  | 0 => 0
  | w + 1 => leNat f w + 256 ^ w * (f w).toNat

theorem leNat_lt (f : Nat → UInt8) (w : Nat) : leNat f w < 256 ^ w := by
  induction w with
  | zero => simp [leNat]
  | succ w ih =>
    have hbyte : (f w).toNat ≤ 255 := by
      have := (f w).toNat_lt
      omega
    calc
      leNat f w + 256 ^ w * (f w).toNat
          < 256 ^ w + 256 ^ w * 255 :=
        Nat.add_lt_add_of_lt_of_le ih (Nat.mul_le_mul_left _ hbyte)
      _ = 256 ^ (w + 1) := by ring

theorem leNat_congr {f g : Nat → UInt8} {w : Nat}
    (h : ∀ i < w, f i = g i) : leNat f w = leNat g w := by
  induction w with
  | zero => rfl
  | succ w ih =>
    simp only [leNat]
    rw [ih (fun i hi => h i (by omega)), h w (by omega)]

theorem leNat_leByte (v w : Nat) : leNat (leByte v) w = v % 256 ^ w := by
  induction w with
  | zero => simp [leNat, Nat.mod_one]
  | succ w ih =>
    have hbyte : (leByte v w).toNat = v / 256 ^ w % 256 := by
      simp [leByte]
    simp only [leNat, ih, hbyte]
    rw [pow_succ, Nat.mod_mul]

theorem leNat_zero (w : Nat) : leNat (fun _ => 0) w = 0 := by
  induction w with
  | zero => rfl
  | succ w ih => simp [leNat, ih]

/-- Two's-complement reading of a `w`-byte number. -/
def toSigned (w v : Nat) : Int :=
  if 2 * v < 256 ^ w then v else (v : Int) - (256 : Int) ^ w

/-- The `w`-byte pattern that stores the integer `z`. -/
def ofSigned (w : Nat) (z : Int) : Nat := (z % (256 : Int) ^ w).toNat

theorem ofSigned_lt (w : Nat) (z : Int) : ofSigned w z < 256 ^ w := by
  have hpos : (0 : Int) < (256 : Int) ^ w := by positivity
  have hlt := Int.emod_lt_of_pos z hpos
  have hnn := Int.emod_nonneg z (ne_of_gt hpos)
  have : ((ofSigned w z : Nat) : Int) < ((256 ^ w : Nat) : Int) := by
    rw [ofSigned, Int.toNat_of_nonneg hnn]
    exact_mod_cast hlt
  exact_mod_cast this

/-- An integer in the signed range of `w` bytes survives being stored. -/
theorem toSigned_ofSigned {w : Nat} {z : Int}
    (hlow : -((256 : Int) ^ w) ≤ 2 * z) (hhigh : 2 * z < (256 : Int) ^ w) :
    toSigned w (ofSigned w z) = z := by
  have hpos : (0 : Int) < (256 : Int) ^ w := by positivity
  have hnn := Int.emod_nonneg z (ne_of_gt hpos)
  have hcast : ((ofSigned w z : Nat) : Int) = z % (256 : Int) ^ w := by
    rw [ofSigned, Int.toNat_of_nonneg hnn]
  have hpow : ((256 ^ w : Nat) : Int) = (256 : Int) ^ w := by push_cast; rfl
  by_cases hz : 0 ≤ z
  · have hmod : z % (256 : Int) ^ w = z := Int.emod_eq_of_lt hz (by omega)
    rw [toSigned, if_pos, hcast, hmod]
    have : (2 * ofSigned w z : Int) < (256 ^ w : Nat) := by
      rw [hpow, hcast, hmod]
      exact hhigh
    exact_mod_cast this
  · have hmod : z % (256 : Int) ^ w = z + (256 : Int) ^ w := by
      rw [← Int.add_emod_right]
      exact Int.emod_eq_of_lt (by omega) (by omega)
    rw [toSigned, if_neg, hcast, hmod]
    · ring
    · intro hcon
      have : (2 * ofSigned w z : Int) < (256 ^ w : Nat) := by exact_mod_cast hcon
      rw [hpow, hcast, hmod] at this
      omega

end ByteSeq

def Bytes (n : Nat) := Fin n → UInt8

namespace Bytes

open ByteSeq

variable {n : Nat}

def byte (b : Bytes n) (i : Nat) : UInt8 :=
  if h : i < n then b ⟨i, h⟩ else 0

/-- Overwrite the `len` bytes at `off` with `src 0, src 1, …`. -/
def splice (b : Bytes n) (off len : Nat) (src : Nat → UInt8) : Bytes n :=
  fun i => if off ≤ i.val ∧ i.val < off + len then src (i.val - off) else b i

def zero : Bytes n := fun _ => 0

/-- The unsigned little-endian number in the `w` bytes at `off`. -/
def num (b : Bytes n) (w off : Nat) : Nat := leNat (fun i => b.byte (off + i)) w

def setNum (b : Bytes n) (w off v : Nat) : Bytes n := b.splice off w (leByte v)

theorem ext_byte {b c : Bytes n} (h : ∀ i < n, b.byte i = c.byte i) : b = c := by
  funext i
  simpa [byte, i.isLt] using h i.val i.isLt

@[simp] theorem byte_zero (i : Nat) : (zero : Bytes n).byte i = 0 := by
  simp [byte, zero]

theorem byte_splice (b : Bytes n) (off len : Nat) (src : Nat → UInt8) (i : Nat) :
    (b.splice off len src).byte i =
      if off ≤ i ∧ i < off + len ∧ i < n then src (i - off) else b.byte i := by
  unfold byte splice
  by_cases hi : i < n
  · simp [hi]
  · simp [hi]

variable {off len w : Nat}

theorem byte_splice_of_disjoint (b : Bytes n) (src : Nat → UInt8) {i : Nat}
    (h : i < off ∨ off + len ≤ i) : (b.splice off len src).byte i = b.byte i := by
  rw [byte_splice, if_neg]
  omega

theorem num_lt (b : Bytes n) (w off : Nat) : b.num w off < 256 ^ w := leNat_lt _ _

@[simp] theorem num_zero (w off : Nat) : (zero : Bytes n).num w off = 0 := by
  simp [num, leNat_zero]

theorem num_congr {b c : Bytes n} (h : ∀ i < w, b.byte (off + i) = c.byte (off + i)) :
    b.num w off = c.num w off :=
  leNat_congr h

theorem num_splice_of_disjoint (b : Bytes n) (src : Nat → UInt8) {off' : Nat}
    (h : off' + w ≤ off ∨ off + len ≤ off') : (b.splice off len src).num w off' = b.num w off' := by
  apply num_congr
  intro i hi
  apply byte_splice_of_disjoint
  omega

/-- Reading a number back from the place it was stored, wherever that place is
inside the bytes written. -/
theorem num_splice_of_inside (b : Bytes n) (src : Nat → UInt8) {k : Nat} (hk : k + w ≤ len)
    (hn : off + len ≤ n) :
    (b.splice off len src).num w (off + k) = leNat (fun i => src (k + i)) w := by
  apply leNat_congr
  intro i hi
  rw [byte_splice, if_pos (by omega)]
  congr 1
  omega

theorem num_setNum_self (b : Bytes n) (v : Nat) (h : off + w ≤ n) :
    (b.setNum w off v).num w off = v % 256 ^ w := by
  have hinside : (b.splice off w (leByte v)).num w (off + 0) =
      leNat (fun i => leByte v (0 + i)) w :=
    num_splice_of_inside b _ (by omega) h
  simpa [setNum, leNat_leByte] using hinside

theorem num_setNum_of_disjoint (b : Bytes n) {w' off' : Nat} (v : Nat)
    (h : off' + w' ≤ off ∨ off + w ≤ off') : (b.setNum w off v).num w' off' = b.num w' off' :=
  num_splice_of_disjoint b _ h

end Bytes
