import Xv6.Vm.Uvm

/-!
`growproc` and `sbrk`. What `allocuvm` and `deallocuvm` return is the new size,
and zero is also their error; the sum of the size and a negative `n` wraps.
-/

namespace Xv6.Vm

open Prog ByteSeq

/-- The fields of a process that `growproc` and `exec` set. -/
structure Proc where
  sz : Nat
  pgdir : Nat
  name : List UInt8
  eip : Nat
  esp : Nat
deriving DecidableEq, Repr

section Definitions

variable (img : Image)

/-- `curproc->sz = sz`, unless `sz` is the error. -/
def Proc.resize (p : Proc) (sz : Nat) : Int × Proc :=
  if sz = 0 then (-1, p) else (0, { p with sz := sz })

def growproc (p : Proc) (n : Int) : VmM (Int × Proc) :=
  if 0 < n then do
    let sz ← allocuvm img p.pgdir p.sz (ofSigned 4 (p.sz + n))
    return p.resize sz
  else if n < 0 then do
    let sz ← deallocuvm img p.pgdir p.sz (ofSigned 4 (p.sz + n))
    return p.resize sz
  else
    return (0, p)

def sbrk (p : Proc) (n : Int) : VmM (Int × Proc) := do
  let addr := toSigned 4 p.sz
  let (r, p') ← growproc img p n
  return (if r < 0 then -1 else addr, p')

end Definitions

/-- The size and the pages are as asked for, or nothing has changed. -/
def GrowsExactly (m m' : Mem) (p p' : Proc) (n r : Int) : Prop :=
  r = 0 ∧ p' = { p with sz := p'.sz } ∧ (p'.sz : Int) = p.sz + n ∧ m'.UserBelow p.pgdir p'.sz ∧
    (∀ x < KERNBASE, x % PGSIZE = 0 → x < PGROUNDUP p.sz → x < PGROUNDUP p'.sz →
      m'.user p.pgdir x = m.user p.pgdir x) ∧
    (∀ x < KERNBASE, x % PGSIZE = 0 → PGROUNDUP p.sz ≤ x → x < PGROUNDUP p'.sz →
      ∃ e, m'.user p.pgdir x = some (e, Bytes.zero)) ∨
  r = -1 ∧ p' = p ∧ ∀ x < KERNBASE, x % PGSIZE = 0 → m'.user p.pgdir x = m.user p.pgdir x

variable {img : Image} {m m' : Mem} {p : Proc} {n : Int} {free rest : List Nat}

theorem ofSigned_of_nonneg {z : Int} (hz : 0 ≤ z) (hlt : z < 2 ^ 32) :
    (ofSigned 4 z : Int) = z := by
  unfold ofSigned
  rw [Int.emod_eq_of_lt hz (by norm_num; exact hlt), Int.toNat_of_nonneg hz]

theorem ofSigned_of_neg {z : Int} (hz : z < 0) (hge : -2 ^ 31 ≤ z) :
    (ofSigned 4 z : Int) = z + 2 ^ 32 := by
  have hmod : z % 256 ^ 4 = z + 2 ^ 32 := by
    rw [show (256 : Int) ^ 4 = 2 ^ 32 by norm_num, ← Int.add_emod_right]
    exact Int.emod_eq_of_lt (by omega) (by omega)
  unfold ofSigned
  rw [hmod, Int.toNat_of_nonneg (by omega)]

variable {sz : Nat}

/-- The state after `growproc`, by the sign of `n`. -/
theorem growproc_run_grow (hn : 0 < n)
    (hrun : allocuvm img p.pgdir p.sz (ofSigned 4 (p.sz + n)) m = (.ok sz, m')) :
    growproc img p n m = (.ok (p.resize sz), m') := by
  unfold growproc
  rw [if_pos hn, bind_ok hrun]
  rfl

theorem growproc_run_shrink (hn : n < 0)
    (hrun : deallocuvm img p.pgdir p.sz (ofSigned 4 (p.sz + n)) m = (.ok sz, m')) :
    growproc img p n m = (.ok (p.resize sz), m') := by
  unfold growproc
  rw [if_neg (by omega), if_pos hn, bind_ok hrun]
  rfl

/-- A sum below zero wraps to a size above the old one, and nothing is done. -/
theorem growproc_run_wrap (hwrap : (p.sz : Int) + n < 0) (hlow : -2 ^ 31 ≤ n) :
    growproc img p n m = (.ok (p.resize p.sz), m) := by
  have hnew := ofSigned_of_neg hwrap (by omega)
  refine growproc_run_shrink (by omega) ?_
  unfold deallocuvm
  rw [if_pos (by omega)]
  rfl

theorem Proc.resize_of_ne (h : sz ≠ 0) : p.resize sz = (0, { p with sz := sz }) := if_neg h

theorem mapping_ne_none_iff {x : Nat} : m.mapping p.pgdir x ≠ none ↔ m.user p.pgdir x ≠ none :=
  not_congr Mem.user_eq_none.symm

/-- Pages that are added one after the other. -/
theorem exact_of_grown {newsz : Nat} (hbelow : m.UserBelow p.pgdir p.sz) (hle : p.sz ≤ newsz)
    (hlt : newsz < KERNBASE) (hn : (newsz : Int) = p.sz + n)
    (hnew : ∀ x ∈ pages (PGROUNDUP p.sz) (PGROUNDUP newsz),
      ∃ e, m'.user p.pgdir x = some (e, Bytes.zero))
    (hold : ∀ x < KERNBASE, x % PGSIZE = 0 → x ∉ pages (PGROUNDUP p.sz) (PGROUNDUP newsz) →
      m'.user p.pgdir x = m.user p.pgdir x) :
    GrowsExactly m m' p { p with sz := newsz } n 0 := by
  have hmem : ∀ x, x ∈ pages (PGROUNDUP p.sz) (PGROUNDUP newsz) ↔
      x % PGSIZE = 0 ∧ PGROUNDUP p.sz ≤ x ∧ x < PGROUNDUP newsz :=
    fun x => mem_pages (PGROUNDUP_aligned p.sz)
  have hround : PGROUNDUP p.sz ≤ PGROUNDUP newsz := by
    unfold PGROUNDUP uint PGSIZE
    unfold KERNBASE at hlt
    omega
  refine Or.inl ⟨rfl, rfl, hn, ?_, ?_, ?_⟩
  · intro x hx haligned
    rw [mapping_ne_none_iff]
    by_cases hin : x ∈ pages (PGROUNDUP p.sz) (PGROUNDUP newsz)
    · obtain ⟨e, he⟩ := hnew x hin
      rw [he]
      exact iff_of_true (Option.some_ne_none _) ((hmem x).mp hin).2.2
    · rw [hold x hx haligned hin, ← mapping_ne_none_iff, hbelow x hx haligned]
      have hout := mt (hmem x).mpr hin
      constructor
      · intro hxlt
        exact lt_of_lt_of_le hxlt hround
      · intro hxlt
        by_contra hge
        exact hout ⟨haligned, Nat.not_lt.mp hge, hxlt⟩
  · intro x hx haligned hxlt _
    exact hold x hx haligned fun hin => absurd hxlt (Nat.not_lt.mpr ((hmem x).mp hin).2.1)
  · intro x _ haligned hge hxlt
    exact hnew x ((hmem x).mpr ⟨haligned, hge, hxlt⟩)

/-- Pages taken away from the end. -/
theorem exact_of_shrunk {newsz : Nat} (hbelow : m.UserBelow p.pgdir p.sz) (hle : newsz < p.sz)
    (hlt : p.sz < KERNBASE) (hn : (newsz : Int) = p.sz + n)
    (huser : ∀ x < KERNBASE, x % PGSIZE = 0 → m'.user p.pgdir x =
      if PGROUNDUP newsz ≤ x ∧ x < p.sz then none else m.user p.pgdir x) :
    GrowsExactly m m' p { p with sz := newsz } n 0 := by
  have hround : PGROUNDUP newsz ≤ PGROUNDUP p.sz := by
    unfold PGROUNDUP uint PGSIZE
    unfold KERNBASE at hlt
    omega
  refine Or.inl ⟨rfl, rfl, hn, ?_, ?_, ?_⟩
  · intro x hx haligned
    have hxsz := lt_PGROUNDUP haligned (Nat.le_of_lt hlt)
    rw [mapping_ne_none_iff, huser x hx haligned]
    split
    · next hin => exact iff_of_false (fun hne => hne rfl) (Nat.not_lt.mpr hin.1)
    · next hout =>
        rw [← mapping_ne_none_iff, hbelow x hx haligned, hxsz]
        constructor
        · intro hxlt
          by_contra hge
          exact hout ⟨Nat.not_lt.mp hge, hxlt⟩
        · intro hxlt
          exact hxsz.mp (lt_of_lt_of_le hxlt hround)
  · intro x hx haligned _ hxlt
    rw [huser x hx haligned, if_neg fun hin => absurd hxlt (Nat.not_lt.mpr hin.1)]
  · intro x hx haligned hge hxlt
    exact absurd (lt_of_lt_of_le hxlt hround) (Nat.not_lt.mpr hge)

theorem resized_ne (h : (sz : Int) ≠ p.sz + n) : ¬ GrowsExactly m m' p { p with sz := sz } n 0 := by
  rintro (⟨-, -, hsize, -⟩ | ⟨hr, -⟩)
  · exact h hsize
  · cases hr

/-- `growproc` does what it is asked for or nothing, except where the new size is
zero, which it takes for an error, or below zero, which it takes for a large
size. -/
theorem growproc_exact_iff (h : Sound img m p.pgdir free rest) (hsz : p.sz < KERNBASE)
    (hbelow : m.UserBelow p.pgdir p.sz) (hlow : -2 ^ 31 ≤ n) (hhigh : n < 2 ^ 31) :
    ∃ r p' m' free', growproc img p n m = (.ok (r, p'), m') ∧
      sbrk img p n m = (.ok (if r = 0 then p.sz else -1, p'), m') ∧
      Sound img m' p.pgdir free' rest ∧ Undisturbed m m' p.pgdir rest ∧
      (GrowsExactly m m' p p' n r ↔ 0 ≤ n ∨ 0 < p.sz + n ∨ p.sz = 0) := by
  have hsbrk : ∀ {r p' m'}, growproc img p n m = (.ok (r, p'), m') → (r = 0 ∨ r = -1) →
      sbrk img p n m = (.ok (if r = 0 then p.sz else -1, p'), m') := by
    intro r p' m' hrun hr
    have haddr : toSigned 4 p.sz = p.sz := by
      unfold toSigned
      rw [if_pos (by unfold KERNBASE at hsz; norm_num; omega)]
    unfold sbrk
    rw [bind_ok hrun, haddr]
    rcases hr with rfl | rfl <;> rfl
  have hsame : Undisturbed m m p.pgdir rest := ⟨fun _ _ => rfl, fun _ _ _ _ => rfl⟩
  have hnothing : GrowsExactly m m p p n (-1) := Or.inr ⟨rfl, rfl, fun _ _ _ => rfl⟩
  have hsz' : (p.sz : Int) < 2 ^ 31 := by
    unfold KERNBASE at hsz
    omega
  rcases lt_trichotomy n 0 with hneg | hzero | hpos
  · rcases lt_or_ge ((p.sz : Int) + n) 0 with hwrap | hnonneg
    · have hgrow : growproc img p n m = _ := growproc_run_wrap hwrap hlow
      by_cases hp : p.sz = 0
      · rw [hp, Proc.resize, if_pos rfl] at hgrow
        refine ⟨-1, p, m, free, hgrow, hsbrk hgrow (Or.inr rfl), h, hsame, ?_⟩
        exact iff_of_true hnothing (Or.inr (Or.inr hp))
      · rw [Proc.resize_of_ne hp] at hgrow
        refine ⟨0, _, m, free, hgrow, hsbrk hgrow (Or.inl rfl), h, hsame, ?_⟩
        exact iff_of_false (resized_ne (by omega)) (by omega)
    · have hnew := ofSigned_of_nonneg hnonneg (by omega)
      obtain ⟨m', free', hrun, hsound, hkept, -, huser⟩ :=
        h.shrink (show ofSigned 4 (p.sz + n) < p.sz by omega) (Nat.le_of_lt hsz)
      have hgrow := growproc_run_shrink hneg hrun
      by_cases hz : ofSigned 4 (p.sz + n) = 0
      · rw [hz, Proc.resize, if_pos rfl] at hgrow
        refine ⟨-1, p, m', free', hgrow, hsbrk hgrow (Or.inr rfl), hsound, hkept, ?_⟩
        refine iff_of_false ?_ (by omega)
        rintro (⟨hr, -⟩ | ⟨-, -, hall⟩)
        · cases hr
        · have hzero := hall 0 (by decide) (by decide)
          rw [huser 0 (by decide) (by decide), hz, PGROUNDUP_zero,
            if_pos ⟨Nat.le_refl _, by omega⟩] at hzero
          have hmapped := (hbelow 0 (by decide) (by decide)).mpr
            ((lt_PGROUNDUP (Nat.zero_mod _) (Nat.le_of_lt hsz)).mpr (by omega))
          exact (mapping_ne_none_iff.mp hmapped) hzero.symm
      · rw [Proc.resize_of_ne hz] at hgrow
        refine ⟨0, _, m', free', hgrow, hsbrk hgrow (Or.inl rfl), hsound, hkept, ?_⟩
        exact iff_of_true (exact_of_shrunk hbelow (by omega) hsz hnew huser) (by omega)
  · subst hzero
    have hgrow : growproc img p 0 m = (.ok (0, p), m) := rfl
    refine ⟨0, p, m, free, hgrow, hsbrk hgrow (Or.inl rfl), h, hsame, ?_⟩
    refine iff_of_true (Or.inl ⟨rfl, rfl, by omega, hbelow, fun _ _ _ _ _ => rfl, ?_⟩) (by omega)
    intro x _ _ hge hlt
    omega
  · have hnew := ofSigned_of_nonneg (z := p.sz + n) (by omega) (by omega)
    rcases Nat.lt_or_ge (ofSigned 4 (p.sz + n)) KERNBASE with hlt | hge
    · obtain ⟨r, m', free', hrun, hsound, hkept, hcases⟩ := h.grow (by omega) hlt hbelow
      have hgrow := growproc_run_grow hpos hrun
      rcases hcases with ⟨hr, -, ⟨f, -, hf⟩, hold⟩ | ⟨hr, -, hall⟩
      · rw [hr, Proc.resize_of_ne (by omega)] at hgrow
        refine ⟨0, _, m', free', hgrow, hsbrk hgrow (Or.inl rfl), hsound, hkept, ?_⟩
        refine iff_of_true (exact_of_grown hbelow (by omega) hlt hnew ?_ hold) (by omega)
        exact fun x hx => ⟨_, (hf x hx).2⟩
      · rw [hr, Proc.resize, if_pos rfl] at hgrow
        refine ⟨-1, p, m', free', hgrow, hsbrk hgrow (Or.inr rfl), hsound, hkept, ?_⟩
        exact iff_of_true (Or.inr ⟨rfl, rfl, hall⟩) (by omega)
    · have hrun : allocuvm img p.pgdir p.sz (ofSigned 4 (p.sz + n)) m = (.ok 0, m) := by
        unfold allocuvm
        rw [if_pos hge]
        rfl
      have hgrow := growproc_run_grow hpos hrun
      rw [Proc.resize, if_pos rfl] at hgrow
      refine ⟨-1, p, m, free, hgrow, hsbrk hgrow (Or.inr rfl), h, hsame, ?_⟩
      exact iff_of_true hnothing (by omega)

/-- The small machine's process with no memory. -/
def smallProc : Proc := ⟨0, 0x80400000, [], 0, 0⟩

theorem growproc_exact_smallProc :
    ∃ r p' m' free', growproc smallImage smallProc 4096 smallMachine.mem = (.ok (r, p'), m') ∧
      Sound smallImage m' 0x80400000 free' [] ∧
      GrowsExactly smallMachine.mem m' smallProc p' 4096 r := by
  obtain ⟨r, p', m', free', hrun, -, hsound, -, hiff⟩ := growproc_exact_iff (p := smallProc)
    (n := 4096) smallMachine_sound (by decide) smallMachine_below (by decide) (by decide)
  exact ⟨r, p', m', free', hrun, hsound, hiff.mpr (Or.inl (by decide))⟩

/-- A process with one page gives it up: `growproc` reports a failure and keeps
the size, but the page is gone. Asked to give up more than it has, it reports
success and does nothing. -/
theorem growproc_loses_page :
    ∃ m m', growproc smallImage smallProc 4096 smallMachine.mem =
        (.ok (0, { smallProc with sz := 4096 }), m) ∧
      growproc smallImage { smallProc with sz := 4096 } (-4096) m =
        (.ok (-1, { smallProc with sz := 4096 }), m') ∧
      m.mapping 0x80400000 0 ≠ none ∧ m'.mapping 0x80400000 0 = none ∧
      growproc smallImage { smallProc with sz := 4096 } (-4097) m =
        (.ok (0, { smallProc with sz := 4096 }), m) := by
  have hwrap (m : Mem) : growproc smallImage { smallProc with sz := 4096 } (-4097) m =
      (.ok (0, { smallProc with sz := 4096 }), m) := by
    rw [growproc_run_wrap (by decide) (by norm_num), Proc.resize_of_ne (by decide)]
  have hgrow : (growproc smallImage smallProc 4096 smallMachine.mem).1 =
      .ok (0, { smallProc with sz := 4096 }) := by
    decide +kernel
  obtain ⟨m', hshrink, hmapped, hgone⟩ : ∃ m', growproc smallImage { smallProc with sz := 4096 }
        (-4096) (growproc smallImage smallProc 4096 smallMachine.mem).2 =
        (.ok (-1, { smallProc with sz := 4096 }), m') ∧
      (growproc smallImage smallProc 4096 smallMachine.mem).2.mapping 0x80400000 0 ≠ none ∧
      m'.mapping 0x80400000 0 = none := by
    decide +kernel
  generalize growproc smallImage smallProc 4096 smallMachine.mem = grown at *
  obtain ⟨r, m⟩ := grown
  exact ⟨m, m', Prod.ext hgrow rfl, hshrink, hmapped, hgone, hwrap m⟩

end Xv6.Vm
