import Xv6.Param
import Xv6.Lib.Memory

/-!
`mp.c`: the search for the tables that describe the processors, and the loop over
the entries of the configuration table. Memory is read at the physical address
`a` where the code reads at `P2V(a)`.
-/

namespace Xv6.Mp

/-- Entry types. -/
def MPPROC : UInt8 := 0
def MPBUS : UInt8 := 1
def MPIOAPIC : UInt8 := 2
def MPIOINTR : UInt8 := 3
def MPLINTR : UInt8 := 4

/-- `sizeof(struct mp)` -/
def MP : Nat := 16

/-- `sizeof(struct mpconf)` -/
def MPCONF : Nat := 44

def sum (m : Memory) (addr len : Nat) : UInt8 := (m.bytes addr len).foldl (· + ·) 0

/-- `memcmp(p, "_MP_", 4) == 0 && sum(p, sizeof(struct mp)) == 0` -/
def IsMp (m : Memory) (p : Nat) : Prop := m.bytes p 4 = [95, 77, 80, 95] ∧ sum m p MP = 0

instance (m : Memory) (p : Nat) : Decidable (IsMp m p) := inferInstanceAs (Decidable (_ ∧ _))

def mpsearch1 (m : Memory) (a len : Nat) : Option Nat :=
  ((List.range ((len + MP - 1) / MP)).map (a + MP * ·)).find? fun p => IsMp m p

def mpsearch (m : Memory) : Option Nat :=
  let ebda := (m 0x40F).toNat * 2 ^ 12 + (m 0x40E).toNat * 2 ^ 4
  let first :=
    if ebda ≠ 0 then mpsearch1 m ebda 1024
    else
      let base := ((m 0x414).toNat * 2 ^ 8 + (m 0x413).toNat) * 1024
      mpsearch1 m ((base + (2 ^ 32 - 1024)) % 2 ^ 32) 1024
  first <|> mpsearch1 m 0xF0000 0x10000

namespace Conf

variable (m : Memory) (conf : Nat)

def length : Nat := m.num (conf + 4) 2

def version : UInt8 := m (conf + 6)

def lapicaddr : Nat := m.num (conf + 36) 4

end Conf

/-- The structure and the configuration table it points to. -/
def mpconfig (m : Memory) : Option (Nat × Nat) :=
  match mpsearch m with
  | none => none
  | some mp =>
    let conf := m.num (mp + 4) 4
    if conf = 0 then none
    else if m.bytes conf 4 ≠ [80, 67, 77, 80] then none
    else if Conf.version m conf ≠ 1 ∧ Conf.version m conf ≠ 4 then none
    else if sum m conf (Conf.length m conf) ≠ 0 then none
    else some (mp, conf)

/-- What `mpinit` finds out; `imcr` says whether it masked the interrupts. -/
structure Machine where
  ncpu : Nat
  apicid : Nat → UInt8
  ioapicid : UInt8
  lapic : Nat
  ismp : Bool
  imcr : Bool

def Machine.addCpu (s : Machine) (apicid : UInt8) : Machine :=
  if s.ncpu < NCPU then { s with apicid := Prog.set s.apicid s.ncpu apicid, ncpu := s.ncpu + 1 }
  else s

/-- The loop over the entries. The `break` of the last case leaves the `switch`
only. -/
def entryLoop (m : Memory) (e : Nat) : Nat → Nat → Machine → Option Machine
  | 0, _, _ => none
  | rounds + 1, p, s =>
    if p < e then
      if m p = MPPROC then entryLoop m e rounds (p + 20) (s.addCpu (m (p + 1)))
      else if m p = MPIOAPIC then entryLoop m e rounds (p + 8) { s with ioapicid := m (p + 1) }
      else if m p = MPBUS ∨ m p = MPIOINTR ∨ m p = MPLINTR then entryLoop m e rounds (p + 8) s
      else entryLoop m e rounds p { s with ismp := false }
    else some s

inductive Panic where
  | expectSmp
  | noSuitableMachine
deriving DecidableEq, Repr

/-- At boot the globals are zero. -/
def boot : Machine where
  ncpu := 0
  apicid := fun _ => 0
  ioapicid := 0
  lapic := 0
  ismp := false
  imcr := false

def mpinit (rounds : Nat) (m : Memory) : Option (Except Panic Machine) :=
  match mpconfig m with
  | none => some (.error .expectSmp)
  | some (mp, conf) => do
    let s ← entryLoop m (conf + Conf.length m conf) rounds (conf + MPCONF)
      { boot with ismp := true, lapic := Conf.lapicaddr m conf }
    if s.ismp then
      return .ok { s with imcr := decide (m (mp + 12) ≠ 0) }
    else
      return .error .noSuitableMachine

/-! ### The entries of a table -/

/-- How far the next entry is, if the type is one of those known. -/
def entrySize (type : UInt8) : Option Nat :=
  if type = MPPROC then some 20
  else if type = MPBUS ∨ type = MPIOAPIC ∨ type = MPIOINTR ∨ type = MPLINTR then some 8
  else none

/-- Where the entries from `p` on begin, up to the first of an unknown type. -/
def entriesFrom (m : Memory) (e : Nat) : Nat → Nat → List Nat
  | 0, _ => []
  | n + 1, p =>
    if p < e then
      match entrySize (m p) with
      | some size => p :: entriesFrom m e n (p + size)
      | none => [p]
    else []

/-- The table has at most one entry for each of its bytes. -/
def entries (m : Memory) (conf : Nat) : List Nat :=
  entriesFrom m (conf + Conf.length m conf) (Conf.length m conf) (conf + MPCONF)

def processors (m : Memory) (conf : Nat) : Nat :=
  (entries m conf).countP fun p => m p = MPPROC

/-- All types are known. -/
def Known (m : Memory) (ps : List Nat) : Prop := ∀ p ∈ ps, m p ≤ MPLINTR

instance (m : Memory) (ps : List Nat) : Decidable (Known m ps) :=
  inferInstanceAs (Decidable (∀ p ∈ ps, _))

variable {m : Memory} {e p n rounds : Nat} {s : Machine}

theorem entrySize_eq_none (type : UInt8) : entrySize type = none ↔ ¬ type ≤ MPLINTR := by
  have hall : ∀ n : Fin 256, entrySize (UInt8.ofNat n) = none ↔ ¬ UInt8.ofNat n ≤ MPLINTR := by
    decide +kernel
  have htype := hall ⟨type.toNat, type.toNat_lt⟩
  rwa [UInt8.ofNat_toNat] at htype

theorem entrySize_ge {type : UInt8} {size : Nat} (h : entrySize type = some size) : 8 ≤ size := by
  unfold entrySize at h
  split at h
  · cases h
    decide
  · split at h
    · cases h
      decide
    · cases h

/-- What one round does to the machine. -/
def Machine.see (s : Machine) (m : Memory) (p : Nat) : Machine :=
  if m p = MPPROC then s.addCpu (m (p + 1))
  else if m p = MPIOAPIC then { s with ioapicid := m (p + 1) }
  else s

/-- A round steps over an entry of a known type. -/
theorem entryLoop_known {size : Nat} (hp : p < e) (hsize : entrySize (m p) = some size) :
    entryLoop m e (rounds + 1) p s = entryLoop m e rounds (p + size) (s.see m p) := by
  rw [entryLoop, if_pos hp]
  unfold Machine.see
  unfold entrySize at hsize
  split at hsize
  · next h =>
      cases hsize
      rw [if_pos h, if_pos h]
  · next h =>
      split at hsize
      · next h' =>
          cases hsize
          rw [if_neg h, if_neg h]
          by_cases hio : m p = MPIOAPIC
          · rw [if_pos hio, if_pos hio]
          · rw [if_neg hio, if_neg hio, if_pos (by tauto)]
      · cases hsize

/-- At an unknown type it stays where it is. -/
theorem entryLoop_unknown (hp : p < e) (hsize : entrySize (m p) = none) :
    entryLoop m e (rounds + 1) p s = entryLoop m e rounds p { s with ismp := false } := by
  rw [entryLoop, if_pos hp]
  unfold entrySize at hsize
  split at hsize
  · cases hsize
  · next h =>
      split at hsize
      · cases hsize
      · next h' => rw [if_neg h, if_neg (by tauto), if_neg (by tauto)]

theorem entryLoop_stuck (hp : p < e) (hsize : entrySize (m p) = none) :
    entryLoop m e rounds p s = none := by
  induction rounds generalizing s with
  | zero => rfl
  | succ rounds ih =>
    rw [entryLoop_unknown hp hsize]
    exact ih

theorem Machine.see_ismp (s : Machine) (m : Memory) (p : Nat) : (s.see m p).ismp = s.ismp := by
  unfold see addCpu
  split
  · split <;> rfl
  · split <;> rfl

/-- The number of processors stops at `NCPU`. -/
theorem Machine.see_ncpu (s : Machine) (m : Memory) (p k : Nat) (h : s.ncpu = min NCPU k) :
    (s.see m p).ncpu = min NCPU (k + if m p = MPPROC then 1 else 0) := by
  unfold see
  split
  · unfold addCpu
    split
    · next hlt =>
        dsimp only
        omega
    · omega
  · split
    · exact h
    · exact h

/-- If all the types are known the loop ends, with the processors counted. -/
theorem entryLoop_ends (hn : e - p ≤ n) (hknown : Known m (entriesFrom m e n p))
    (hrounds : n < rounds) {k : Nat} (hk : s.ncpu = min NCPU k) :
    ∃ s', entryLoop m e rounds p s = some s' ∧ s'.ismp = s.ismp ∧
      s'.ncpu = min NCPU (k + (entriesFrom m e n p).countP fun p => m p = MPPROC) := by
  induction n generalizing p s rounds k with
  | zero =>
    obtain ⟨rounds, rfl⟩ := Nat.exists_eq_succ_of_ne_zero (Nat.ne_zero_of_lt hrounds)
    rw [entryLoop, if_neg (by omega)]
    exact ⟨s, rfl, rfl, hk⟩
  | succ n ih =>
    obtain ⟨rounds, rfl⟩ := Nat.exists_eq_succ_of_ne_zero (Nat.ne_zero_of_lt hrounds)
    rw [entriesFrom] at hknown ⊢
    by_cases hp : p < e
    · rw [if_pos hp] at hknown ⊢
      cases hsize : entrySize (m p) with
      | none =>
        rw [hsize] at hknown
        exact absurd (hknown p List.mem_cons_self) ((entrySize_eq_none _).mp hsize)
      | some size =>
        have hge := entrySize_ge hsize
        rw [hsize] at hknown
        have hrest : Known m (entriesFrom m e n (p + size)) := fun q hq =>
          hknown q (List.mem_cons_of_mem p hq)
        obtain ⟨s', hrun, hismp, hncpu⟩ := ih (by omega) hrest (Nat.lt_of_succ_lt_succ hrounds)
          (s.see_ncpu m p k hk)
        refine ⟨s', ?_, hismp.trans (s.see_ismp m p), ?_⟩
        · rw [entryLoop_known hp hsize, hrun]
        · dsimp only
          rw [hncpu, List.countP_cons, Nat.add_assoc]
          simp only [decide_eq_true_eq]
          congr 2
          exact Nat.add_comm ..
    · rw [if_neg hp, entryLoop, if_neg hp]
      exact ⟨s, rfl, rfl, hk⟩

/-- Otherwise it never does. -/
theorem entryLoop_diverges (rounds : Nat) (hn : e - p ≤ n) (h : ¬ Known m (entriesFrom m e n p)) :
    entryLoop m e rounds p s = none := by
  induction n generalizing p s rounds with
  | zero => exact absurd (fun q hq => nomatch hq) h
  | succ n ih =>
    rw [entriesFrom] at h
    by_cases hp : p < e
    · rw [if_pos hp] at h
      cases hsize : entrySize (m p) with
      | none => exact entryLoop_stuck hp hsize
      | some size =>
        have hge := entrySize_ge hsize
        rw [hsize] at h
        cases rounds with
        | zero => rfl
        | succ rounds =>
          rw [entryLoop_known hp hsize]
          refine ih rounds (by omega) fun hrest => h fun q hq => ?_
          rcases List.mem_cons.mp hq with rfl | hq
          · by_contra hgt
            have := (entrySize_eq_none _).mpr hgt
            rw [hsize] at this
            cases this
          · exact hrest q hq
    · rw [if_neg hp] at h
      exact absurd (fun q hq => nomatch hq) h

/-- On a table that `mpconfig` accepts, `mpinit` ends, with the processors counted
up to `NCPU` or with the panic for an unsuitable machine, just if the types of all
entries are known. -/
theorem mpinit_ends_iff (m : Memory) (mp conf : Nat) (h : mpconfig m = some (mp, conf)) :
    (∃ n, ∀ rounds, n ≤ rounds → mpinit rounds m = some (.error .noSuitableMachine) ∨
      ∃ s, mpinit rounds m = some (.ok s) ∧ s.ncpu = min NCPU (processors m conf)) ↔
    Known m (entries m conf) := by
  have hlen : conf + Conf.length m conf - (conf + MPCONF) ≤ Conf.length m conf := by omega
  unfold mpinit
  rw [h]
  dsimp only
  constructor
  · rintro ⟨n, hends⟩
    by_contra hunknown
    have hnone := entryLoop_diverges n
      (s := { boot with ismp := true, lapic := Conf.lapicaddr m conf }) hlen hunknown
    rcases hends n (Nat.le_refl n) with hrun | ⟨s, hrun, -⟩
    · rw [hnone] at hrun
      cases hrun
    · rw [hnone] at hrun
      cases hrun
  · intro hknown
    refine ⟨Conf.length m conf + 1, fun rounds hrounds => Or.inr ?_⟩
    obtain ⟨s, hrun, hismp, hncpu⟩ := entryLoop_ends (k := 0)
      (s := { boot with ismp := true, lapic := Conf.lapicaddr m conf }) hlen hknown hrounds rfl
    refine ⟨{ s with imcr := decide (m (mp + 12) ≠ 0) }, ?_, ?_⟩
    · rw [hrun]
      simp [hismp]
    · rw [Nat.zero_add] at hncpu
      exact hncpu

/-- A floating pointer at `0xF0000` and a configuration table at `0x1000` that
ends with the given entries, both with the right checksum. The BIOS data area says
that there are 639 KB of base memory. -/
def tableAt (check : UInt8) (entries : List UInt8) : Memory := fun a =>
  if a < 0x1000 then if a = 0x413 then 127 else if a = 0x414 then 2 else 0
  else if a < 0xF0000 then
    ([80, 67, 77, 80, UInt8.ofNat (44 + entries.length), 0, 1, check] ++ List.replicate 36 0 ++
      entries).getD (a - 0x1000) 0
  else [95, 77, 80, 95, 0, 16, 0, 0, 1, 4, 144].getD (a - 0xF0000) 0

/-- A table with one processor. -/
theorem mpinit_ends_one : mpconfig (tableAt 143 (List.replicate 20 0)) = some (0xF0000, 0x1000) ∧
    ∃ n, ∀ rounds, n ≤ rounds →
      mpinit rounds (tableAt 143 (List.replicate 20 0)) = some (.error .noSuitableMachine) ∨
      ∃ s, mpinit rounds (tableAt 143 (List.replicate 20 0)) = some (.ok s) ∧ s.ncpu = 1 := by
  have hconf : mpconfig (tableAt 143 (List.replicate 20 0)) = some (0xF0000, 0x1000) := by
    decide +kernel
  have hcpu : min NCPU (processors (tableAt 143 (List.replicate 20 0)) 0x1000) = 1 := by
    decide +kernel
  refine ⟨hconf, ?_⟩
  rw [← hcpu]
  exact (mpinit_ends_iff _ _ _ hconf).mpr (by decide +kernel)

/-- One byte after the header, of type 5. -/
theorem mpinit_stuck : mpconfig (tableAt 157 [5]) = some (0xF0000, 0x1000) ∧
    ∀ rounds, mpinit rounds (tableAt 157 [5]) = none := by
  have hconf : mpconfig (tableAt 157 [5]) = some (0xF0000, 0x1000) := by decide +kernel
  refine ⟨hconf, fun rounds => ?_⟩
  unfold mpinit
  rw [hconf]
  dsimp only
  rw [entryLoop_stuck (by decide +kernel) (by decide +kernel)]
  rfl

end Xv6.Mp
