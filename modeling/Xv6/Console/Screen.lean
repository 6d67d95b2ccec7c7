import Xv6.Kstring.Memmove

/-!
The screen: `cgaputc` of `console.c` on the memory of the display, which holds two bytes
for each place, the character and its colour. The text is written on a sheet without an
end, and the display is a window of 24 rows on it.
-/

namespace Xv6.Cga

def BACKSPACE : UInt32 := 0x100

/-- `crt`, which is `P2V(0xb8000)`. -/
def crt : Nat := 0x800b8000

abbrev Cell := UInt8 × UInt8

def get (m : Memory) (i : Nat) : Cell := (m (crt + 2 * i), m (crt + 2 * i + 1))

def set (m : Memory) (i : Nat) (v : Cell) : Memory :=
  (m.put (crt + 2 * i) v.1).put (crt + 2 * i + 1) v.2

/-- A space, black on white. -/
def blank : Cell := (32, 7)

/-- `memset` with 0, which stores by bytes or by words to the same effect. -/
def clear : Nat → Memory → Nat → Memory
  | 0, m, _ => m
  | n + 1, m, dst => clear n (m.put dst 0) (dst + 1)

structure State where
  mem : Memory
  /-- The cursor register, column + 80 * row. -/
  pos : Nat

def State.write (s : State) (v : Cell) : State := { s with mem := set s.mem s.pos v }

def State.place (s : State) (c : UInt32) : State :=
  if c = 10 then { s with pos := s.pos + (80 - s.pos % 80) }
  else if c = BACKSPACE then { s with pos := s.pos - 1 }
  else { s.write (c.toUInt8, 7) with pos := s.pos + 1 }

def State.scroll (s : State) : State :=
  if s.pos / 80 ≥ 24 then
    { mem := clear (2 * (24 * 80 - (s.pos - 80)))
        (Kstring.memmove s.mem crt (crt + 2 * 80) (2 * (23 * 80))) (crt + 2 * (s.pos - 80))
      pos := s.pos - 80 }
  else s

/-- No result is the panic "pos under/overflow". -/
def cgaputc (s : State) (c : UInt32) : Option State :=
  if (s.place c).pos > 25 * 80 then none
  else
    let t := (s.place c).scroll
    some { t.write blank with pos := t.pos % 2 ^ 16 }

/-- What the screen is for: rows of 80 places, of which those from `top` on are seen. -/
structure Sheet where
  cell : Nat → Cell
  pos : Nat
  top : Nat

def Sheet.write (t : Sheet) (v : Cell) : Sheet := { t with cell := Prog.set t.cell t.pos v }

def Sheet.place (t : Sheet) (c : UInt32) : Sheet :=
  if c = 10 then { t with pos := 80 * (t.pos / 80 + 1) }
  else if c = BACKSPACE then { t with pos := max (80 * t.top) (t.pos - 1) }
  else { t.write (c.toUInt8, 7) with pos := t.pos + 1 }

/-- The window follows the cursor down. -/
def Sheet.follow (t : Sheet) : Sheet := { t with top := max t.top (t.pos / 80 - 23) }

def Sheet.put (t : Sheet) (c : UInt32) : Sheet := (t.place c).follow.write blank

/-- The sheet that starts with what is on the display. -/
def State.sheet (s : State) : Sheet :=
  ⟨fun i => if i < 24 * 80 then get s.mem i else (0, 0), s.pos, 0⟩

/-- The display is the window on the sheet; outside of it the memory is `m`. -/
structure Shows (m : Memory) (s : State) (t : Sheet) : Prop where
  pos : t.pos = 80 * t.top + s.pos
  cell : ∀ i < 24 * 80, get s.mem i = t.cell (80 * t.top + i)
  fresh : ∀ i ≥ 80 * (t.top + 24), t.cell i = (0, 0)
  other : ∀ a, a < crt ∨ crt + 2 * (24 * 80) ≤ a → s.mem a = m a

theorem get_set (m : Memory) (i j : Nat) (v : Cell) :
    get (set m i v) j = if j = i then v else get m j := by
  unfold get set
  by_cases h : j = i
  · subst h
    rw [if_pos rfl, Memory.put_self, Memory.put_of_ne _ _ (by omega), Memory.put_self]
  · rw [if_neg h, Memory.put_of_ne _ _ (by omega), Memory.put_of_ne _ _ (by omega),
      Memory.put_of_ne _ _ (by omega), Memory.put_of_ne _ _ (by omega)]

theorem clear_apply (n : Nat) (m : Memory) (dst x : Nat) :
    clear n m dst x = if dst ≤ x ∧ x < dst + n then 0 else m x := by
  induction n generalizing m dst with
  | zero => rw [clear, if_neg (by omega)]
  | succ n ih =>
    rw [clear, ih]
    by_cases hx : x = dst
    · subst hx
      rw [if_neg (by omega), if_pos (by omega), Memory.put_self]
    · rw [Memory.put_of_ne _ _ hx]
      exact if_congr (by omega) rfl rfl

/-- A row up: the first 23 rows are those below, the last one is empty. -/
theorem scroll_apply (m : Memory) (x : Nat) :
    clear (2 * (24 * 80 - 23 * 80)) (Kstring.memmove m crt (crt + 2 * 80) (2 * (23 * 80)))
        (crt + 2 * (23 * 80)) x =
      if x < crt ∨ crt + 2 * (24 * 80) ≤ x then m x
      else if x < crt + 2 * (23 * 80) then m (x + 2 * 80) else 0 := by
  have hdst : crt + 2 * (23 * 80) ≤ 2 ^ 32 := by norm_num [crt]
  have hsrc : crt + 2 * 80 + 2 * (23 * 80) ≤ 2 ^ 32 := by norm_num [crt]
  rw [clear_apply, Kstring.kernel_moves hdst hsrc]
  by_cases hout : x < crt ∨ crt + 2 * (24 * 80) ≤ x
  · rw [if_neg (by omega), if_neg (by omega), if_pos hout]
  · rw [if_neg hout]
    by_cases hrow : x < crt + 2 * (23 * 80)
    · rw [if_neg (by omega), if_pos (by omega), if_pos hrow,
        show crt + 2 * 80 + (x - crt) = x + 2 * 80 by omega]
    · rw [if_pos (by omega), if_neg hrow]

section

variable {m : Memory} {s : State} {t : Sheet}

theorem Shows.write (h : Shows m s t) (hpos : s.pos < 24 * 80) (v : Cell) :
    Shows m (s.write v) (t.write v) where
  pos := h.pos
  cell := by
    intro i hi
    simp only [State.write, Sheet.write, get_set, Prog.set, h.pos, Nat.add_left_cancel_iff]
    rw [h.cell i hi]
  fresh := by
    intro i hi
    have hpos' := h.pos
    simp only [Sheet.write, Prog.set] at hi ⊢
    rw [if_neg (by omega)]
    exact h.fresh i hi
  other := by
    intro a ha
    simp only [State.write, set]
    rw [Memory.put_of_ne _ _ (by omega), Memory.put_of_ne _ _ (by omega)]
    exact h.other a ha

theorem Shows.place (h : Shows m s t) (hpos : s.pos < 24 * 80) (c : UInt32) :
    Shows m (s.place c) (t.place c) ∧ (s.place c).pos ≤ 24 * 80 := by
  have heq := h.pos
  unfold State.place Sheet.place
  split_ifs
  · exact ⟨⟨by dsimp only; omega, h.cell, h.fresh, h.other⟩, by dsimp only; omega⟩
  · exact ⟨⟨by dsimp only; omega, h.cell, h.fresh, h.other⟩, by dsimp only; omega⟩
  · have hw := h.write hpos (c.toUInt8, 7)
    exact ⟨⟨by dsimp only [Sheet.write]; omega, hw.cell, hw.fresh, hw.other⟩, by dsimp only; omega⟩

theorem Shows.follow (h : Shows m s t) (hpos : s.pos ≤ 24 * 80) :
    Shows m s.scroll t.follow ∧ s.scroll.pos < 24 * 80 := by
  have heq := h.pos
  unfold State.scroll Sheet.follow
  by_cases hlast : s.pos / 80 ≥ 24
  · have h24 : s.pos = 24 * 80 := by omega
    have htop : max t.top (t.pos / 80 - 23) = t.top + 1 := by omega
    rw [if_pos hlast, htop, h24]
    refine ⟨⟨by dsimp only; omega, ?_, ?_, ?_⟩, by dsimp only; omega⟩
    · intro i hi
      dsimp only [get]
      by_cases hrow : i < 23 * 80
      · rw [scroll_apply, if_neg (by omega), if_pos (by omega), scroll_apply, if_neg (by omega),
          if_pos (by omega), show 80 * (t.top + 1) + i = 80 * t.top + (i + 80) by omega,
          ← h.cell (i + 80) (by omega), get, Nat.mul_add 2 i, ← Nat.add_assoc,
          Nat.add_right_comm _ 1]
      · rw [scroll_apply, if_neg (by omega), if_neg (by omega), scroll_apply, if_neg (by omega),
          if_neg (by omega), h.fresh _ (by omega)]
    · intro i hi
      exact h.fresh i (by dsimp only at hi; omega)
    · intro a ha
      dsimp only
      rw [scroll_apply, if_pos ha]
      exact h.other a ha
  · have htop : max t.top (t.pos / 80 - 23) = t.top := by omega
    rw [if_neg hlast, htop]
    exact ⟨h, by omega⟩

theorem Shows.cgaputc (h : Shows m s t) (hpos : s.pos < 24 * 80) (c : UInt32) :
    ∃ s', cgaputc s c = some s' ∧ Shows m s' (t.put c) ∧ s'.pos < 24 * 80 := by
  obtain ⟨hplace, hle⟩ := h.place hpos c
  obtain ⟨hfollow, hlt⟩ := hplace.follow hle
  have hmod : (s.place c).scroll.pos % 2 ^ 16 = (s.place c).scroll.pos :=
    Nat.mod_eq_of_lt (by omega)
  refine ⟨_, if_neg (by omega), ?_, ?_⟩
  · dsimp only
    rw [hmod]
    exact hfollow.write hlt blank
  · dsimp only
    rwa [hmod]

/-- **The display shows the end of the text.** Whatever is printed, from a cursor in the
first 24 rows on: `cgaputc` does not panic, the cursor stays in these rows, they show
the 24 rows of the sheet from `top` on, and no other memory is written. -/
theorem display_shows_text (cs : List UInt32) (s : State) (hpos : s.pos < 24 * 80) :
    ∃ s', cs.foldlM Cga.cgaputc s = some s' ∧ s'.pos < 24 * 80 ∧
      Shows s.mem s' (cs.foldl Sheet.put s.sheet) := by
  have hrun (t : State) (u : Sheet) (h : Shows s.mem t u) (ht : t.pos < 24 * 80) :
      ∃ s', cs.foldlM Cga.cgaputc t = some s' ∧ s'.pos < 24 * 80 ∧
        Shows s.mem s' (cs.foldl Sheet.put u) := by
    induction cs generalizing t u with
    | nil => exact ⟨t, rfl, ht, h⟩
    | cons c cs ih =>
      obtain ⟨t', hput, h', ht'⟩ := h.cgaputc ht c
      obtain ⟨s', hcs, hs'⟩ := ih t' (u.put c) h' ht'
      refine ⟨s', ?_, hs'⟩
      rw [List.foldlM_cons, hput]
      exact hcs
  refine hrun s s.sheet ⟨by simp [State.sheet], ?_, ?_, fun _ _ => rfl⟩ hpos
  · intro i hi
    simp [State.sheet, hi]
  · intro i hi
    simp [State.sheet, show ¬ i < 24 * 80 from Nat.not_lt.mpr hi]

end

/-- A newline in the last row. -/
theorem display_shows_text_last : (⟨fun _ => 0, 23 * 80⟩ : State).pos < 24 * 80 ∧
    ∃ s', [10].foldlM Cga.cgaputc ⟨fun _ => 0, 23 * 80⟩ = some s' ∧ s'.pos < 24 * 80 ∧
      Shows (fun _ => 0) s' ([10].foldl Sheet.put (State.sheet ⟨fun _ => 0, 23 * 80⟩)) :=
  ⟨by decide, display_shows_text [10] ⟨fun _ => 0, 23 * 80⟩ (by decide)⟩

end Xv6.Cga
