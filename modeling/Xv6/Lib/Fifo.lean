import Mathlib.Data.List.Basic
import Mathlib.Tactic.Ring
import Xv6.Lib.Prog

/-!
A circular buffer with two free-running counters of `w` bits, for elements that
were put in and elements that were taken out. The counters wrap around, and
the cell of an element is its number modulo the capacity, which works because
the capacity divides `2 ^ w`.
-/

structure Fifo (α : Type) (w cap : Nat) where
  data : Nat → α
  nread : BitVec w
  nwrite : BitVec w

namespace Fifo

open Prog

variable {α : Type} {w cap : Nat}

def Empty (f : Fifo α w cap) : Prop := f.nread = f.nwrite

def Full (f : Fifo α w cap) : Prop := f.nwrite = f.nread + BitVec.ofNat w cap

instance (f : Fifo α w cap) : Decidable f.Empty := inferInstanceAs (Decidable (_ = _))

instance (f : Fifo α w cap) : Decidable f.Full := inferInstanceAs (Decidable (_ = _))

/-- `data[nwrite++ % cap] = x` -/
def push (f : Fifo α w cap) (x : α) : Fifo α w cap :=
  { f with data := set f.data (f.nwrite.toNat % cap) x, nwrite := f.nwrite + 1 }

/-- `data[nread++ % cap]` -/
def pop (f : Fifo α w cap) : α × Fifo α w cap :=
  (f.data (f.nread.toNat % cap), { f with nread := f.nread + 1 })

/-- The element that went in last is taken back. -/
def unpush (f : Fifo α w cap) : Fifo α w cap := { f with nwrite := f.nwrite - 1 }

/-- The element that came out last is put back. -/
def unpop (f : Fifo α w cap) : Fifo α w cap := { f with nread := f.nread - 1 }

def last (f : Fifo α w cap) : α := f.data ((f.nwrite - 1).toNat % cap)

/-- After `ins` went in and `outs` came out: the counters count them, and the
cells hold what is left, in order. -/
structure Holds (f : Fifo α w cap) (ins outs : List α) : Prop where
  nread : f.nread = BitVec.ofNat w outs.length
  nwrite : f.nwrite = BitVec.ofNat w ins.length
  outs_le : outs.length ≤ ins.length
  room : ins.length ≤ outs.length + cap
  taken : outs = ins.take outs.length
  cells : ∀ i (h : i < ins.length), outs.length ≤ i → f.data (i % cap) = ins[i]

variable {f : Fifo α w cap} {ins outs : List α}

theorem holds_nil (data : Nat → α) : Holds (⟨data, 0, 0⟩ : Fifo α w cap) [] [] :=
  ⟨rfl, rfl, Nat.le_refl _, by simp, rfl, fun i h => absurd h (by simp)⟩

section

variable (h : f.Holds ins outs) (hcap : cap < 2 ^ w)
include h hcap

/-- The distance of the counters, also after they have wrapped. -/
theorem Holds.toNat_sub : (f.nwrite - f.nread).toNat = ins.length - outs.length := by
  have hle := h.outs_le
  have hroom := h.room
  have hsub : f.nwrite - f.nread = BitVec.ofNat w (ins.length - outs.length) := by
    rw [h.nwrite, h.nread, BitVec.sub_eq_iff_eq_add, ← BitVec.ofNat_add]
    congr 1
    omega
  rw [hsub, BitVec.toNat_ofNat, Nat.mod_eq_of_lt (by omega)]

theorem Holds.empty_iff : f.Empty ↔ outs.length = ins.length := by
  have hle := h.outs_le
  have hsub := h.toNat_sub hcap
  constructor
  · intro hempty
    rw [show f.nwrite = f.nread from hempty.symm, BitVec.sub_self] at hsub
    simp at hsub
    omega
  · intro heq
    unfold Empty
    rw [h.nread, h.nwrite, heq]

theorem Holds.full_iff : f.Full ↔ ins.length = outs.length + cap := by
  have hle := h.outs_le
  have hroom := h.room
  have hsub := h.toNat_sub hcap
  constructor
  · intro hfull
    rw [show f.nwrite = f.nread + BitVec.ofNat w cap from hfull, BitVec.add_comm,
      BitVec.add_sub_cancel, BitVec.toNat_ofNat, Nat.mod_eq_of_lt hcap] at hsub
    omega
  · intro heq
    unfold Full
    rw [h.nread, h.nwrite, heq, BitVec.ofNat_add]

theorem Holds.push (hdvd : cap ∣ 2 ^ w) (hfull : ¬ f.Full) (x : α) :
    (f.push x).Holds (ins ++ [x]) outs := by
  have hle := h.outs_le
  have hroom := h.room
  have hspace : ins.length < outs.length + cap := by
    have := mt (h.full_iff hcap).mpr hfull
    omega
  have hcell : f.nwrite.toNat % cap = ins.length % cap := by
    rw [h.nwrite, BitVec.toNat_ofNat, Nat.mod_mod_of_dvd _ hdvd]
  refine ⟨h.nread, ?_, ?_, ?_, ?_, ?_⟩
  · change f.nwrite + 1 = _
    rw [h.nwrite, List.length_append, List.length_singleton, BitVec.ofNat_add]
    rfl
  · simp
    omega
  · simp
    omega
  · rw [List.take_append_of_le_length hle]
    exact h.taken
  · intro i hi hout
    change set f.data (f.nwrite.toNat % cap) x (i % cap) = _
    rw [hcell]
    simp only [List.length_append, List.length_singleton] at hi
    by_cases hlast : i = ins.length
    · subst hlast
      simp
    · have hlt : i < ins.length := by omega
      -- two numbers less than `cap` apart have different cells
      have hne : i % cap ≠ ins.length % cap := by
        intro heq
        have hmod : (ins.length - i) % cap = 0 := Nat.sub_mod_eq_zero_of_mod_eq heq.symm
        rw [Nat.mod_eq_of_lt (by omega)] at hmod
        omega
      rw [set_of_ne _ _ hne, List.getElem_append_left hlt]
      exact h.cells i hlt hout

end

theorem Holds.pop_fst (h : f.Holds ins outs) (hdvd : cap ∣ 2 ^ w)
    (hlt : outs.length < ins.length) : f.pop.1 = ins[outs.length] := by
  change f.data (f.nread.toNat % cap) = _
  rw [h.nread, BitVec.toNat_ofNat, Nat.mod_mod_of_dvd _ hdvd]
  exact h.cells outs.length hlt (Nat.le_refl _)

theorem Holds.pop (h : f.Holds ins outs) (hcap : cap < 2 ^ w) (hdvd : cap ∣ 2 ^ w)
    (hempty : ¬ f.Empty) : f.pop.2.Holds ins (outs ++ [f.pop.1]) := by
  have hle := h.outs_le
  have hroom := h.room
  have hlt : outs.length < ins.length := by
    have := mt (h.empty_iff hcap).mpr hempty
    omega
  have hfirst := h.pop_fst hdvd hlt
  refine ⟨?_, h.nwrite, ?_, ?_, ?_, ?_⟩
  · change f.nread + 1 = _
    rw [h.nread, List.length_append, List.length_singleton, BitVec.ofNat_add]
    rfl
  · simp
    omega
  · simp
    omega
  · rw [List.length_append, List.length_singleton, hfirst, List.take_add_one,
      List.getElem?_eq_getElem hlt]
    rw [← h.taken]
    rfl
  · intro i hi hout
    simp only [List.length_append, List.length_singleton] at hout
    exact h.cells i hi (by omega)

@[simp] theorem unpop_pop (f : Fifo α w cap) : f.pop.2.unpop = f := by
  change (⟨f.data, f.nread + 1 - 1, f.nwrite⟩ : Fifo α w cap) = f
  rw [BitVec.add_sub_cancel]

section

variable {x : α} (h : f.Holds (ins ++ [x]) outs)
include h

/-- What went in last is not yet out. -/
theorem Holds.nwrite_sub_one : f.nwrite - 1 = BitVec.ofNat w ins.length := by
  rw [h.nwrite, List.length_append, List.length_singleton, BitVec.ofNat_add]
  exact BitVec.add_sub_cancel _ _

theorem Holds.last_eq (hdvd : cap ∣ 2 ^ w) (hle : outs.length ≤ ins.length) : f.last = x := by
  unfold last
  rw [h.nwrite_sub_one, BitVec.toNat_ofNat, Nat.mod_mod_of_dvd _ hdvd,
    h.cells ins.length (by simp) hle]
  simp

theorem Holds.unpush (hle : outs.length ≤ ins.length) : f.unpush.Holds ins outs := by
  have hroom := h.room
  have htaken := h.taken
  simp only [List.length_append, List.length_singleton] at hroom
  rw [List.take_append_of_le_length hle] at htaken
  refine ⟨h.nread, h.nwrite_sub_one, hle, by omega, htaken, ?_⟩
  intro i hi hout
  have hcell := h.cells i (by simp; omega) hout
  rw [List.getElem_append_left hi] at hcell
  exact hcell

end

/-- What came out is what went in first, and the counters tell how much is
still inside. -/
theorem Holds.split (h : f.Holds ins outs) (hcap : cap < 2 ^ w) :
    (f.nwrite - f.nread).toNat ≤ cap ∧
    ∃ rest, ins = outs ++ rest ∧ rest.length = (f.nwrite - f.nread).toNat := by
  have hle := h.outs_le
  have hroom := h.room
  rw [h.toNat_sub hcap]
  refine ⟨by omega, ins.drop outs.length, ?_, List.length_drop⟩
  conv_lhs => rw [← List.take_append_drop outs.length ins]
  rw [← h.taken]

end Fifo
