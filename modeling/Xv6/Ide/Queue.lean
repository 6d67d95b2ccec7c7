import Xv6.Ide.Basic
import Xv6.Lib.Segment

/-!
The parts of the disk driver: the ports name the block of the buffer, and
`idequeue` is a list at whose end `iderw` puts a buffer.
-/

namespace Xv6.Ide

open Prog Transition

/-! ### The ports -/

/-- The drive a buffer is for. -/
def drive (x : Buf) : Bool := x.dev % 2 = 1

theorem head_bits (d h : Nat) (hd : d < 2) (hh : h < 16) :
    (0xe0 ||| d <<< 4 ||| h).testBit 4 = decide (d = 1) ∧ (0xe0 ||| d <<< 4 ||| h) % 2 ^ 4 = h := by
  revert h
  have hall : ∀ d < 2, ∀ h < 16, (0xe0 ||| d <<< 4 ||| h).testBit 4 = decide (d = 1) ∧
      (0xe0 ||| d <<< 4 ||| h) % 2 ^ 4 = h := by decide
  exact fun h hh => hall d hd h hh

theorem command_drive (x : Buf) : (command x).drive = drive x := by
  have hd : x.dev &&& 1 = x.dev % 2 := Nat.and_one_is_mod x.dev
  have hh : ((x.blockno * sectorPerBlock) >>> 24) &&& 0x0f < 16 := by
    exact Nat.lt_of_le_of_lt Nat.and_le_right (by decide)
  unfold command Cmd.drive drive
  rw [hd]
  exact (head_bits _ _ (Nat.mod_lt _ (by decide)) hh).1

theorem command_sector {x : Buf} (hx : x.blockno < Fs.FSSIZE) : (command x).sector = x.blockno := by
  have hh : ((x.blockno * sectorPerBlock) >>> 24) &&& 0x0f < 16 :=
    Nat.lt_of_le_of_lt Nat.and_le_right (by decide)
  have hd : x.dev &&& 1 < 2 := Nat.lt_of_le_of_lt Nat.and_le_right (by decide)
  have hone : x.blockno * sectorPerBlock = x.blockno := Nat.mul_one x.blockno
  have hff (n : Nat) : n &&& 0xff = n % 2 ^ 8 := Nat.and_two_pow_sub_one_eq_mod n 8
  unfold command Cmd.sector
  simp only
  rw [(head_bits _ _ hd hh).2, hone]
  have hf : (x.blockno >>> 24) &&& 0x0f = (x.blockno >>> 24) % 2 ^ 4 :=
    Nat.and_two_pow_sub_one_eq_mod _ 4
  rw [hff, hff, hff, hf, Nat.shiftRight_eq_div_pow, Nat.shiftRight_eq_div_pow,
    Nat.shiftRight_eq_div_pow]
  unfold Fs.FSSIZE at hx
  omega

/-! ### The list -/

section Queue

variable {A : Type} {s s' : Driver A} {q : List A} {b : A}

def Driver.next (s : Driver A) (x : Option A) : Option A := x.bind s.qnext

/-- `idequeue` is a list of different buffers. -/
structure Queued (s : Driver A) (q : List A) : Prop where
  seg : Seg s.next s.idequeue (q.map some) none
  nodup : q.Nodup

theorem Queued.congr (h : Queued s q) (hq : s'.idequeue = s.idequeue)
    (hnext : ∀ b ∈ q, s'.qnext b = s.qnext b) : Queued s' q := by
  refine ⟨?_, h.nodup⟩
  rw [hq]
  refine h.seg.congr ?_
  intro x hx
  obtain ⟨b, hb, rfl⟩ := List.mem_map.mp hx
  exact hnext b hb

theorem Queued.nil_iff (h : Queued s q) : s.idequeue = none ↔ q = [] := by
  cases q with
  | nil => exact iff_of_true h.seg rfl
  | cons b q =>
    have hhead : s.idequeue = some b := h.seg.1
    rw [hhead]
    exact iff_of_false (by simp) (by simp)

theorem Queued.head (h : Queued s (b :: q)) : s.idequeue = some b := h.seg.1

/-- The first buffer is taken off. -/
theorem Queued.pop (h : Queued s (b :: q)) (hq : s'.idequeue = s.qnext b)
    (hnext : s'.qnext = s.qnext) : Queued s' q := by
  refine ⟨?_, (List.nodup_cons.mp h.nodup).2⟩
  unfold Driver.next
  rw [hq, hnext]
  exact h.seg.2

/-- The loop of `iderw` stops at the last buffer, after one round for each. -/
theorem walk_eq (pp : Option A) {l : List A} {rounds : Nat}
    (h : Seg s.next (s.deref pp) (l.map some) none) :
    s.walk rounds pp = if l.length < rounds then some (l.getLast?.or pp) else none := by
  induction l generalizing pp rounds with
  | nil =>
    have hnone : s.deref pp = none := h
    cases rounds with
    | zero => rfl
    | succ rounds => simp [Driver.walk, hnone]
  | cons a l ih =>
    have hsome : s.deref pp = some a := h.1
    cases rounds with
    | zero => rfl
    | succ rounds =>
      simp only [Driver.walk, hsome, ih (some a) h.2, List.length_cons,
        Nat.add_lt_add_iff_right]
      cases l with
      | nil => rfl
      | cons a' l => simp [List.getLast?_cons]

variable [DecidableEq A]

/-- `b->qnext = 0` for a buffer that is not in the queue. -/
theorem Queued.clear (h : Queued s q) (hb : b ∉ q) :
    Queued { s with qnext := set s.qnext b none } q := by
  refine h.congr rfl ?_
  intro a ha
  apply set_of_ne
  rintro rfl
  exact hb ha

/-- The buffer is put at the end of the queue. -/
theorem Queued.append {rounds : Nat} {pp : Option A} (h : Queued s q) (hb : b ∉ q)
    (hnone : s.qnext b = none) (hwalk : s.walk rounds none = some pp) :
    Queued (s.assign pp b) (q ++ [b]) := by
  rw [walk_eq none h.seg] at hwalk
  split_ifs at hwalk
  have hnodup : (q ++ [b]).Nodup := by
    rw [List.nodup_append_comm]
    exact List.nodup_cons.mpr ⟨hb, h.nodup⟩
  refine ⟨?_, hnodup⟩
  rcases List.eq_nil_or_concat q with rfl | ⟨l, a, rfl⟩
  · obtain rfl : none = pp := by simpa using hwalk
    exact ⟨rfl, hnone⟩
  · obtain rfl : some a = pp := by simpa using hwalk
    have hab : b ≠ a := by
      rintro rfl
      exact hb (by simp)
    have hal : a ∉ l := by
      have := h.nodup
      rw [List.concat_eq_append, List.nodup_append] at this
      exact fun ha => this.2.2 a ha a (by simp) rfl
    have hseg := h.seg
    simp only [List.concat_eq_append, List.map_append, List.map_cons, List.map_nil] at hseg
    have hlast : Seg (s.assign (some a) b).next (s.assign (some a) b).idequeue
        (l.map some ++ [some a, some b]) none := by
      refine hseg.concat ?_ ?_ ?_
      · intro x hx
        obtain ⟨a', ha', rfl⟩ := List.mem_map.mp hx
        change set s.qnext a (some b) a' = s.qnext a'
        apply set_of_ne
        rintro rfl
        exact hal ha'
      · change set s.qnext a (some b) a = some b
        exact set_self _ _ _
      · change set s.qnext a (some b) b = none
        rw [set_of_ne _ _ hab]
        exact hnone
    simpa using hlast

end Queue

end Xv6.Ide
