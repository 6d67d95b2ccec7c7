import Xv6.Console.Basic

/-!
The console as a line editor: a queue of committed characters and a line that is
still being typed. Whatever is typed and read, the ring of `console.c` holds the
queue and the line one after the other, and its readers get what the readers of
the editor get.
-/

namespace Xv6.Console

open Prog Transition

/-- `committed` is all that ever was in the queue. -/
structure Editor where
  queue : List UInt8
  line : List UInt8
  committed : List UInt8

namespace Editor

def empty : Editor := ⟨[], [], []⟩

def Full (d : Editor) : Prop := d.queue.length + d.line.length = INPUT_BUF

instance (d : Editor) : Decidable d.Full := inferInstanceAs (Decidable (_ = _))

def type (d : Editor) (c : UInt8) : Editor := { d with line := d.line ++ [c] }

def commit (d : Editor) : Editor :=
  { queue := d.queue ++ d.line, line := [], committed := d.committed ++ d.line }

def key (d : Editor) (c : UInt8) : Editor :=
  if c = ctrl 'P' then d
  else if c = ctrl 'U' then { d with line := [] }
  else if c = ctrl 'H' ∨ c = delete then { d with line := d.line.dropLast }
  else if c ≠ 0 ∧ ¬ d.Full then
    let c := if c = carriageReturn then newline else c
    let d := d.type c
    if c = newline ∨ c = ctrl 'D' ∨ d.Full then d.commit else d
  else d

/-- A reader takes characters off the queue up to its count or a newline. It
takes a `^D` only if it has nothing yet. -/
def read (target : Nat) : Nat → Editor → Editor × Progress
  | 0, d => (d, ⟨[], some .count⟩)
  | n + 1, d =>
    match d.queue with
    | [] => (d, ⟨[], none⟩)
    | c :: queue =>
      if c = ctrl 'D' then
        if n + 1 < target then (d, ⟨[], some .beforeEof⟩)
        else ({ d with queue := queue }, ⟨[], some .eof⟩)
      else if c = newline then ({ d with queue := queue }, ⟨[c], some .newline⟩)
      else
        let (d, p) := read target n { d with queue := queue }
        (d, { p with bytes := c :: p.bytes })

end Editor

def editor : Device Editor := ⟨Editor.key, Editor.read⟩

/-- The characters that an event takes off the queue. -/
def Progress.taken (p : Progress) : List UInt8 :=
  p.bytes ++ (if p.why = some .eof then [ctrl 'D'] else [])

/-- The ring shows the editor, after the readers took `outs`. -/
structure Shows (s : Input) (d : Editor) (outs : List UInt8) : Prop where
  ring : s.ring.Holds (outs ++ d.queue ++ d.line) outs
  w : s.w = BitVec.ofNat 32 (outs ++ d.queue).length
  line : newline ∉ d.line
  committed : d.committed = outs ++ d.queue

theorem cap_lt : INPUT_BUF < 2 ^ 32 := by decide

theorem cap_dvd : INPUT_BUF ∣ 2 ^ 32 := by decide

namespace Shows

variable {s : Input} {d : Editor} {outs : List UInt8}

section

variable (h : Shows s d outs)
include h

theorem room : d.queue.length + d.line.length ≤ INPUT_BUF := by
  have := h.ring.room
  simp only [List.length_append] at this
  omega

theorem e_sub_r : (s.e - s.r).toNat = d.queue.length + d.line.length := by
  have := h.ring.toNat_sub cap_lt
  simp only [List.length_append] at this
  exact this.trans (by omega)

/-- The committed characters are a ring of their own. -/
theorem queue :
    (⟨s.ring.data, s.r, s.w⟩ : Fifo UInt8 32 INPUT_BUF).Holds (outs ++ d.queue) outs where
  nread := h.ring.nread
  nwrite := h.w
  outs_le := by simp
  room := by
    have := h.room
    simp only [List.length_append]
    omega
  taken := by simp
  cells := by
    intro i hi hout
    rw [h.ring.cells i (by rw [List.length_append]; omega) hout, List.getElem_append_left hi]

theorem w_sub_r : (s.w - s.r).toNat = d.queue.length :=
  (h.queue.toNat_sub cap_lt).trans (by simp)

theorem r_eq_w : s.r = s.w ↔ d.queue = [] := by
  refine (h.queue.empty_iff cap_lt).trans ?_
  rw [List.length_append, ← List.length_eq_zero_iff]
  omega

theorem e_sub_w : (s.e - s.w).toNat = d.line.length := by
  have hroom := h.room
  have hcap : INPUT_BUF < 2 ^ 32 := cap_lt
  have hsub : s.e - s.w = BitVec.ofNat 32 d.line.length := by
    rw [show s.e = BitVec.ofNat 32 (outs ++ d.queue ++ d.line).length from h.ring.nwrite, h.w,
      List.length_append, BitVec.sub_eq_iff_eq_add, BitVec.ofNat_add,
      BitVec.add_comm]
  rw [hsub, BitVec.toNat_ofNat, Nat.mod_eq_of_lt (by omega)]

theorem e_eq_w : s.e = s.w ↔ d.line = [] := by
  rw [← List.length_eq_zero_iff, ← h.e_sub_w]
  constructor
  · intro heq
    simp [heq]
  · intro hzero
    have : s.e - s.w = 0 := BitVec.eq_of_toNat_eq (by simpa using hzero)
    rw [BitVec.sub_eq_iff_eq_add] at this
    simpa using this

theorem full_iff : s.e = s.r + BitVec.ofNat 32 INPUT_BUF ↔ d.Full := by
  refine (h.ring.full_iff cap_lt).trans ?_
  unfold Editor.Full
  simp only [List.length_append]
  omega

end

/-! ### Typing -/

section Typing

variable {queue line committed : List UInt8} {c : UInt8}

theorem erase (h : Shows s ⟨queue, line ++ [c], committed⟩ outs) :
    Shows s.erase ⟨queue, line, committed⟩ outs where
  ring := by
    have hring := h.ring
    dsimp only at hring
    rw [← List.append_assoc] at hring
    exact hring.unpush (by simp)
  w := h.w
  line := fun hmem => h.line (List.mem_append_left _ hmem)
  committed := h.committed

theorem last_eq (h : Shows s ⟨queue, line ++ [c], committed⟩ outs) : s.ring.last = c := by
  have hring := h.ring
  dsimp only at hring
  rw [← List.append_assoc] at hring
  exact hring.last_eq cap_dvd (by simp)

/-- `^U` goes back to the start of the line. -/
theorem killLine (h : Shows s ⟨queue, line, committed⟩ outs) :
    Shows (Input.killLine line.length s) ⟨queue, [], committed⟩ outs := by
  induction line using List.reverseRecOn generalizing s with
  | nil => exact h
  | append_singleton line c ih =>
    have hne : s.e ≠ s.w := by
      rw [ne_eq, h.e_eq_w]
      simp
    have hlast : s.ring.last ≠ newline := by
      rw [h.last_eq]
      rintro rfl
      exact h.line (by simp)
    rw [List.length_append, List.length_singleton, Input.killLine, if_pos ⟨hne, hlast⟩]
    exact ih h.erase

theorem backspace (h : Shows s d outs) :
    Shows (if s.e ≠ s.w then s.erase else s) { d with line := d.line.dropLast } outs := by
  obtain ⟨queue, line, committed⟩ := d
  rcases List.eq_nil_or_concat line with rfl | ⟨line, c, rfl⟩
  · rw [if_neg (not_not.mpr (h.e_eq_w.mpr rfl))]
    exact h
  · rw [List.concat_eq_append] at h ⊢
    rw [if_pos (mt h.e_eq_w.mp (by simp)), List.dropLast_concat]
    exact h.erase

section

variable (h : Shows s d outs) (hroom : ¬ d.Full)
include h hroom

theorem push (c : UInt8) : (s.ring.push c).Holds (outs ++ d.queue ++ (d.line ++ [c])) outs := by
  rw [← List.append_assoc]
  exact h.ring.push cap_lt cap_dvd (mt h.full_iff.mp hroom) c

theorem push_full_iff (c : UInt8) : (s.ring.push c).Full ↔ (d.type c).Full := by
  refine ((h.push hroom c).full_iff cap_lt).trans ?_
  unfold Editor.Full Editor.type
  simp only [List.length_append]
  omega

/-- A character that commits the line. -/
theorem commit (c : UInt8) :
    Shows ⟨s.ring.push c, (s.ring.push c).nwrite⟩ (d.type c).commit outs where
  ring := by simpa [Editor.commit, Editor.type] using h.push hroom c
  w := by
    rw [(h.push hroom c).nwrite]
    simp [Editor.commit, Editor.type]
  line := List.not_mem_nil
  committed := by simp [Editor.commit, Editor.type, h.committed]

/-- A character that does not. -/
theorem type (hc : c ≠ newline) :
    Shows ⟨s.ring.push c, s.w⟩ (d.type c) outs where
  ring := h.push hroom c
  w := h.w
  line := by
    intro hmem
    rcases List.mem_append.mp hmem with hmem | hmem
    · exact h.line hmem
    · exact hc (List.mem_singleton.mp hmem).symm
  committed := h.committed

theorem accept (c : UInt8) :
    Shows (if c = newline ∨ c = ctrl 'D' ∨ (s.ring.push c).Full then
        ⟨s.ring.push c, (s.ring.push c).nwrite⟩ else ⟨s.ring.push c, s.w⟩)
      (if c = newline ∨ c = ctrl 'D' ∨ (d.type c).Full then (d.type c).commit else d.type c)
      outs := by
  simp only [h.push_full_iff hroom c]
  split
  · exact h.commit hroom c
  · next hc => exact h.type hroom fun heq => hc (.inl heq)

end

theorem key (h : Shows s d outs) (c : UInt8) : Shows (s.key c) (d.key c) outs := by
  have hroom : (s.e - s.r).toNat < INPUT_BUF ↔ ¬ d.Full := by
    have := h.room
    rw [h.e_sub_r]
    unfold Editor.Full
    omega
  unfold Input.key Editor.key
  rw [h.e_sub_w]
  simp only [hroom]
  split
  · exact h
  split
  · exact h.killLine
  split
  · exact h.backspace
  split
  · next hc => exact h.accept hc.2 _
  · exact h

theorem keys (h : Shows s d outs) (cs : List UInt8) :
    Shows (cs.foldl Input.key s) (cs.foldl Editor.key d) outs := by
  induction cs generalizing s d with
  | nil => exact h
  | cons c cs ih => exact ih (h.key c)

end Typing

/-! ### Reading -/

section Reading

variable {queue line committed : List UInt8} {c : UInt8}

theorem pop_fst (h : Shows s ⟨c :: queue, line, committed⟩ outs) : s.ring.pop.1 = c := by
  rw [h.ring.pop_fst cap_dvd (by simp)]
  simp

theorem pop (h : Shows s ⟨c :: queue, line, committed⟩ outs) :
    Shows ⟨s.ring.pop.2, s.w⟩ ⟨queue, line, committed⟩ (outs ++ [c]) where
  ring := by
    have hne : ¬ s.ring.Empty := by
      rw [h.ring.empty_iff cap_lt]
      simp
    have hring := h.ring.pop cap_lt cap_dvd hne
    rw [h.pop_fst] at hring
    simpa using hring
  w := by simpa using h.w
  line := h.line
  committed := by simpa using h.committed

/-- A reader of the ring gets what a reader of the queue gets. -/
theorem read (target n : Nat) (h : Shows s d outs) :
    (Input.read target n s).2 = (Editor.read target n d).2 ∧
    Shows (Input.read target n s).1 (Editor.read target n d).1
      (outs ++ (Editor.read target n d).2.taken) := by
  induction n generalizing s d outs with
  | zero => exact ⟨rfl, by simpa [Input.read, Editor.read, Progress.taken] using h⟩
  | succ n ih =>
    obtain ⟨queue, line, committed⟩ := d
    unfold Input.read Editor.read
    cases queue with
    | nil =>
      rw [if_pos (h.r_eq_w.mpr rfl)]
      exact ⟨rfl, by simpa [Progress.taken] using h⟩
    | cons c queue =>
      rw [if_neg (mt h.r_eq_w.mp (by simp)), h.pop_fst]
      dsimp only
      have hpop := h.pop
      split
      · split
        · refine ⟨rfl, ?_⟩
          simpa [Progress.taken] using h
        · next heof _ =>
            subst heof
            exact ⟨rfl, hpop⟩
      split
      · exact ⟨rfl, by simpa [Progress.taken] using hpop⟩
      · obtain ⟨hsame, hshows⟩ := ih hpop
        refine ⟨by rw [hsame], ?_⟩
        simpa [Progress.taken] using hshows

end Reading

end Shows

end Xv6.Console
