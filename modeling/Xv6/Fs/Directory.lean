import Xv6.Fs.Names
import Xv6.Lib.SlotMap

/-!
A directory as a finite map. Its bytes are a table of slots of `DIRENT` bytes;
a slot is free if its inode number is 0. The loops of `dirlookup` and
`dirlink` over the bytes are searches in this table, whatever the operations
that read them.
-/

namespace Xv6.Fs

open Prog SlotMap

/-- The bytes of slot `j`. -/
def slotBytes (data : Nat → UInt8) (j : Nat) : Nat → UInt8 := fun x => data (DIRENT * j + x)

/-- What the bytes of a slot say. -/
def decodeSlot (de : Nat → UInt8) : Option (Name × Nat) :=
  if deInum de = 0 then none else some (cstr (deName de), deInum de)

/-- The table in the first `size` bytes. -/
def dirTable (data : Nat → UInt8) (size : Nat) : Table Name Nat :=
  (List.range (rounds size)).map fun j => decodeSlot (slotBytes data j)

theorem dirTable_getElem? {data : Nat → UInt8} {size j : Nat} (hj : j < rounds size) :
    (dirTable data size)[j]? = some (decodeSlot (slotBytes data j)) := by
  simp [dirTable, hj]

theorem length_dirTable (data : Nat → UInt8) (size : Nat) :
    (dirTable data size).length = rounds size := by
  simp [dirTable]

theorem cstr_congr {s s' : Nat → UInt8} (h : ∀ j < DIRSIZ, s j = s' j) : cstr s = cstr s' := by
  unfold cstr
  congr 1
  apply List.map_congr_left
  intro j hj
  exact h j (List.mem_range.mp hj)

theorem decodeSlot_congr {de de' : Nat → UInt8} (h : ∀ x < DIRENT, de x = de' x) :
    decodeSlot de = decodeSlot de' := by
  have hname : cstr (deName de) = cstr (deName de') := by
    refine cstr_congr fun j hj => h (2 + j) ?_
    unfold DIRSIZ at hj
    unfold DIRENT
    omega
  unfold decodeSlot
  rw [deInum_congr h, hname]

theorem decodeSlot_dirent {inum : Nat} {name : Name} (hpos : inum ≠ 0) (hlt : inum < 2 ^ 16)
    (hname : 0 ∉ name) : decodeSlot (dirent inum name) = some (name.take DIRSIZ, inum) := by
  have hcstr : cstr (deName (dirent inum name)) = name.take DIRSIZ := by
    rw [cstr_congr (fun j _ => deName_dirent inum name j)]
    exact field_cbyte hname DIRSIZ
  unfold decodeSlot
  rw [deInum_dirent hlt, if_neg hpos, hcstr]

theorem decodeSlot_zero : decodeSlot (fun _ => 0) = none := by decide

theorem rounds_mul (n : Nat) : rounds (DIRENT * n) = n := by
  unfold rounds DIRENT
  omega

/-- The table after the bytes of slot `j` were stored. -/
theorem dirTable_store {data data' : Nat → UInt8} {size j : Nat} {de : Nat → UInt8}
    (hj : j ≤ rounds size) (hsize : DIRENT ∣ size)
    (hdata : ∀ o, data' o = if DIRENT * j ≤ o ∧ o < DIRENT * j + DIRENT then de (o - DIRENT * j)
      else data o) :
    dirTable data' (max size (DIRENT * j + DIRENT)) =
      if j < rounds size then (dirTable data size).set j (decodeSlot de)
      else dirTable data size ++ [decodeSlot de] := by
  obtain ⟨n, rfl⟩ := hsize
  rw [rounds_mul] at hj ⊢
  have hself : decodeSlot (slotBytes data' j) = decodeSlot de := by
    refine decodeSlot_congr fun x hx => ?_
    unfold slotBytes
    rw [hdata, if_pos ⟨by omega, by omega⟩, Nat.add_sub_cancel_left]
  have hother (i : Nat) (hi : i ≠ j) :
      decodeSlot (slotBytes data' i) = decodeSlot (slotBytes data i) := by
    refine decodeSlot_congr fun x hx => ?_
    unfold slotBytes
    rw [hdata, if_neg]
    unfold DIRENT at hx ⊢
    omega
  have hmax : max (DIRENT * n) (DIRENT * j + DIRENT) = DIRENT * max n (j + 1) := by
    unfold DIRENT
    omega
  rw [hmax]
  by_cases hlt : j < n
  · rw [if_pos hlt, Nat.max_eq_left hlt]
    apply List.ext_getElem?
    intro i
    rw [List.getElem?_set]
    by_cases hi : i < n
    · rw [dirTable_getElem? (by rwa [rounds_mul]), dirTable_getElem? (by rwa [rounds_mul])]
      by_cases hij : j = i
      · subst hij
        rw [if_pos rfl, hself, if_pos (by rwa [length_dirTable, rounds_mul])]
      · rw [if_neg hij, hother i (Ne.symm hij)]
    · have hlen (d : Nat → UInt8) : (dirTable d (DIRENT * n))[i]? = none := by
        rw [List.getElem?_eq_none_iff, length_dirTable, rounds_mul]
        omega
      rw [hlen, hlen, if_neg (by omega)]
  · obtain rfl : j = n := by omega
    rw [if_neg hlt, Nat.max_eq_right (Nat.le_succ j)]
    unfold dirTable
    rw [rounds_mul, rounds_mul, List.range_succ, List.map_append, List.map_singleton, hself]
    congr 1
    apply List.map_congr_left
    intro i hi
    exact hother i (List.mem_range.mp hi).ne

/-- A search through the slots in order stops at the first one that fits. -/
theorem findIdx?_dirTable_some {data : Nat → UInt8} {size j : Nat}
    {f : Option (Name × Nat) → Bool} :
    (dirTable data size).findIdx? f = some j ↔ j < rounds size ∧
      f (decodeSlot (slotBytes data j)) = true ∧
        ∀ i < j, f (decodeSlot (slotBytes data i)) = false := by
  rw [List.findIdx?_eq_some_iff_getElem]
  constructor
  · rintro ⟨hlt, htrue, hbefore⟩
    refine ⟨by rwa [length_dirTable] at hlt, by simpa [dirTable] using htrue, fun i hi => ?_⟩
    simpa [dirTable] using hbefore i hi
  · rintro ⟨hlt, htrue, hbefore⟩
    refine ⟨by rwa [length_dirTable], by simpa [dirTable] using htrue, fun i hi => ?_⟩
    simpa [dirTable] using hbefore i hi

theorem findIdx?_dirTable_none {data : Nat → UInt8} {size : Nat}
    {f : Option (Name × Nat) → Bool} :
    (dirTable data size).findIdx? f = none ↔
      ∀ j < rounds size, f (decodeSlot (slotBytes data j)) = false := by
  simp [dirTable]

section Loops

variable {σ P : Type} [DecidableEq P] {o : Ops σ P} {p : P} {dp : Ip} {I : σ → Prop} {m : Meta}
  {data : Nat → UInt8} {s : σ} {E : Panic → σ → Prop}

/-- As long as `I` holds, `dp` is a directory that can be read, with these fields
and these bytes. -/
structure Readable (o : Ops σ P) (p : P) (dp : Ip) (I : σ → Prop) (m : Meta)
    (data : Nat → UInt8) : Prop where
  dir : m.type = T_DIR
  fields : ∀ s, I s → wp (o.fields dp) (fun r s' => r = m ∧ I s') (fun _ _ => False) s
  read : ∀ s j, I s → j < rounds m.size → wp (readi o p dp (DIRENT * j) DIRENT)
    (fun r s' => r.1 = DIRENT ∧ (∀ x < DIRENT, r.2 x = slotBytes data j x) ∧ I s')
    (fun _ _ => False) s

theorem holds_decodeSlot {name : Name} (hname : 0 ∉ name) (de : Nat → UInt8) :
    holds (name.take DIRSIZ) (decodeSlot de) = true ↔
      deInum de ≠ 0 ∧ namecmp (cbyte name) (deName de) = 0 := by
  rw [namecmp_field hname]
  unfold decodeSlot
  split
  · next h0 => simp [holds, h0]
  · next h0 => simp [holds, h0, eq_comm]

/-- `dirlookup` gets the inode of the first slot with the name. -/
theorem Readable.wp_dirlookup (h : Readable o p dp I m data) {name : Name} (hname : 0 ∉ name)
    {Q : Option (Ip × Nat) → σ → Prop} (hs : I s)
    (hnone : lookup (name.take DIRSIZ) (dirTable data m.size) = none → ∀ s, I s → Q none s)
    (hsome : ∀ j inum, slotOf (dirTable data m.size) (name.take DIRSIZ) = some j →
      lookup (name.take DIRSIZ) (dirTable data m.size) = some inum → inum ≠ 0 → inum < 2 ^ 16 →
      ∀ s, I s → wp (do
        let e ← o.kernel (entry dp)
        o.kernel (iget e.dev inum)) (fun ip s' => Q (some (ip, DIRENT * j)) s') E s) :
    wp (dirlookup o p dp name) Q E s := by
  unfold dirlookup
  refine wp_total (h.fields s hs) ?_
  rintro r s ⟨hr, hs⟩
  rw [hr]
  refine wp_bind.mpr (wp_panicIf.mpr ⟨fun hne => absurd h.dir hne, fun _ => ?_⟩)
  refine wp_first (rounds m.size) 0
    (fun j s => I s ∧ ∀ i < j, holds (name.take DIRSIZ) (decodeSlot (slotBytes data i)) = false)
    ⟨hs, fun i hi => absurd hi (Nat.not_lt_zero i)⟩ ?_ ?_
  · rintro j s - hj ⟨hs, hbefore⟩
    rw [Nat.zero_add] at hj
    refine wp_total (h.read s j hs hj) ?_
    rintro ⟨r, de⟩ s ⟨hr, hde, hs⟩
    refine wp_bind.mpr (wp_panicIf.mpr ⟨fun hne => absurd hr hne, fun _ => ?_⟩)
    have hiff := holds_decodeSlot hname (slotBytes data j)
    have hcmp : namecmp (cbyte name) (deName de) =
        namecmp (cbyte name) (deName (slotBytes data j)) :=
      namecmp_deName_congr hde _
    rw [deInum_congr hde, hcmp]
    have hnext (hno : ¬ (deInum (slotBytes data j) ≠ 0 ∧
        namecmp (cbyte name) (deName (slotBytes data j)) = 0)) :
        I s ∧ ∀ i < j + 1, holds (name.take DIRSIZ) (decodeSlot (slotBytes data i)) = false := by
      refine ⟨hs, fun i hi => ?_⟩
      by_cases hij : i = j
      · subst hij
        by_contra htrue
        exact hno (hiff.mp (by simpa using htrue))
      · exact hbefore i (by omega)
    refine wp_ite (fun h0 => hnext fun hc => hc.1 h0) (fun h0 => ?_)
    refine wp_ite (fun heq => ?_) (fun hne => hnext fun hc => hne hc.2)
    have hholds : holds (name.take DIRSIZ) (decodeSlot (slotBytes data j)) = true :=
      hiff.mpr ⟨h0, heq⟩
    have hslot : slotOf (dirTable data m.size) (name.take DIRSIZ) = some j :=
      findIdx?_dirTable_some.mpr ⟨hj, hholds, hbefore⟩
    obtain ⟨inum, hget, hlook⟩ := getElem?_slotOf hslot
    rw [dirTable_getElem? hj, Option.some_inj] at hget
    obtain rfl : deInum (slotBytes data j) = inum := by
      unfold decodeSlot at hget
      rw [if_neg h0] at hget
      exact congrArg Prod.snd (Option.some.inj hget)
    have hget' := hsome j _ hslot hlook h0 (ByteSeq.leNat_lt _ 2) s hs
    rw [wp_bind] at hget' ⊢
    refine wp_mono hget' ?_ (fun _ _ he => he)
    intro e s' hip
    rw [wp_bind]
    exact hip
  · rintro s ⟨hs, hbefore⟩
    rw [Nat.zero_add] at hbefore
    refine hnone ?_ s hs
    rw [← slotOf_eq_none_iff]
    exact findIdx?_dirTable_none.mpr hbefore

/-- The loop of `dirlink` for a free slot. -/
theorem Readable.wp_freeSlot (h : Readable o p dp I m data) {Q : Option Nat → σ → Prop} (hs : I s)
    (hQ : ∀ s, I s → Q ((freeSlot (dirTable data m.size)).map (DIRENT * ·)) s) :
    wp (first (fun i => do
      let (r, de) ← readi o p dp (DIRENT * i) DIRENT
      panicIf (r ≠ DIRENT) .dirlinkRead
      if deInum de = 0 then
        return some (DIRENT * i)
      else
        return none) (rounds m.size) 0) Q E s := by
  have hfree (de : Nat → UInt8) : (decodeSlot de).isNone = true ↔ deInum de = 0 := by
    unfold decodeSlot
    split
    · next h0 => simp [h0]
    · next h0 => simp [h0]
  refine wp_first (rounds m.size) 0
    (fun j s => I s ∧ ∀ i < j, (decodeSlot (slotBytes data i)).isNone = false)
    ⟨hs, fun i hi => absurd hi (Nat.not_lt_zero i)⟩ ?_ ?_
  · rintro j s - hj ⟨hs, hbefore⟩
    rw [Nat.zero_add] at hj
    refine wp_total (h.read s j hs hj) ?_
    rintro ⟨r, de⟩ s ⟨hr, hde, hs⟩
    refine wp_bind.mpr (wp_panicIf.mpr ⟨fun hne => absurd hr hne, fun _ => ?_⟩)
    rw [deInum_congr hde]
    refine wp_ite (fun h0 => ?_) (fun h0 => ?_)
    · have hslot : freeSlot (dirTable data m.size) = some j :=
        findIdx?_dirTable_some.mpr ⟨hj, (hfree _).mpr h0, hbefore⟩
      have hq := hQ s hs
      rw [hslot] at hq
      exact hq
    · refine ⟨hs, fun i hi => ?_⟩
      by_cases hij : i = j
      · subst hij
        by_contra htrue
        exact h0 ((hfree _).mp (by simpa using htrue))
      · exact hbefore i (by omega)
  · rintro s ⟨hs, hbefore⟩
    rw [Nat.zero_add] at hbefore
    have hnone : freeSlot (dirTable data m.size) = none := findIdx?_dirTable_none.mpr hbefore
    have hq := hQ s hs
    rw [hnone] at hq
    exact hq

/-- The slot that `dirlink` writes: the first free one, or one at the end. -/
def linkSlot (t : Table Name Nat) : Nat := (freeSlot t).getD t.length

theorem linkSlot_le (data : Nat → UInt8) (size : Nat) :
    linkSlot (dirTable data size) ≤ rounds size := by
  unfold linkSlot
  cases hfree : freeSlot (dirTable data size) with
  | none => exact (length_dirTable data size).le
  | some j => exact (findIdx?_dirTable_some.mp hfree).1.le

/-- `dirlink` gives back the inode of a slot that has the name, or writes the
first free slot; it panics if that fails. -/
theorem Readable.wp_dirlink (h : Readable o p dp I m data) {name : Name} (hname : 0 ∉ name)
    {inum : Nat} {Q : Int → σ → Prop} (hs : I s)
    (hfound : ∀ i, lookup (name.take DIRSIZ) (dirTable data m.size) = some i → i ≠ 0 →
      i < 2 ^ 16 → ∀ s, I s → wp (do
        let e ← o.kernel (entry dp)
        o.kernel (iget e.dev i))
        (fun ip => wp (iput o p ip) (fun _ => Q (-1)) E) E s)
    (hwrite : lookup (name.take DIRSIZ) (dirTable data m.size) = none → ∀ s, I s →
      wp (writei o p dp (dirent inum name) (DIRENT * linkSlot (dirTable data m.size)) DIRENT)
        (fun r s' => if r = DIRENT then Q 0 s' else E .dirlink s') E s) :
    wp (dirlink o p dp name inum) Q E s := by
  unfold dirlink
  rw [wp_bind]
  refine h.wp_dirlookup hname hs ?_ ?_
  · intro hnone s hs
    refine wp_total (h.fields s hs) ?_
    rintro r s ⟨hr, hs⟩
    rw [hr, wp_bind]
    refine h.wp_freeSlot hs fun s hs => ?_
    have hoff : ((freeSlot (dirTable data m.size)).map (DIRENT * ·)).getD (DIRENT * rounds m.size) =
        DIRENT * linkSlot (dirTable data m.size) := by
      unfold linkSlot
      rw [length_dirTable]
      cases freeSlot (dirTable data m.size) <;> rfl
    rw [hoff]
    refine wp_seq (hwrite hnone s hs) ?_
    intro r s hr
    rw [wp_bind, wp_panicIf]
    constructor
    · intro hne
      rwa [if_neg hne] at hr
    · intro heq
      rwa [if_pos (not_ne_iff.mp heq)] at hr
  · intro j i _ hlook hpos hlt s hs
    refine wp_mono (hfound i hlook hpos hlt s hs) ?_ (fun _ _ he => he)
    intro ip s' hput
    exact wp_bind.mpr hput

/-- Where `dirlink` writes, the table gets its new entry. -/
theorem dirTable_link {data' : Nat → UInt8} {size inum : Nat} {name : Name} (hsize : DIRENT ∣ size)
    (hpos : inum ≠ 0) (hlt : inum < 2 ^ 16) (hname : 0 ∉ name)
    (hdata : ∀ o, data' o =
      if DIRENT * linkSlot (dirTable data size) ≤ o ∧
          o < DIRENT * linkSlot (dirTable data size) + DIRENT then
        dirent inum name (o - DIRENT * linkSlot (dirTable data size))
      else data o) :
    dirTable data' (max size (DIRENT * linkSlot (dirTable data size) + DIRENT)) =
      SlotMap.insert (name.take DIRSIZ) inum (dirTable data size) := by
  rw [dirTable_store (linkSlot_le data size) hsize hdata, decodeSlot_dirent hpos hlt hname,
    insert_eq]
  unfold linkSlot
  cases hfree : freeSlot (dirTable data size) with
  | none => exact if_neg (by rw [Option.getD_none, length_dirTable]; exact lt_irrefl _)
  | some j => exact if_pos (findIdx?_dirTable_some.mp hfree).1

/-- Zeroing the slot of a name, as `sys_unlink` does. -/
theorem dirTable_unlink {data' : Nat → UInt8} {size j : Nat} {key : Name} (hsize : DIRENT ∣ size)
    (hj : slotOf (dirTable data size) key = some j)
    (hdata : ∀ o, data' o = if DIRENT * j ≤ o ∧ o < DIRENT * j + DIRENT then 0 else data o) :
    dirTable data' (max size (DIRENT * j + DIRENT)) = clear (dirTable data size) j := by
  have hlt := (findIdx?_dirTable_some.mp hj).1
  rw [@dirTable_store data data' size j (fun _ => 0) hlt.le hsize hdata, if_pos hlt,
    decodeSlot_zero]
  rfl

end Loops

end Xv6.Fs
