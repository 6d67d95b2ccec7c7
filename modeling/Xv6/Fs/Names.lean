import Mathlib.Data.List.TakeWhile
import Xv6.Fs.Dir

/-!
Names in directory entries and the elements of a path. Two names are the same
to the kernel if their first `DIRSIZ` bytes are.
-/

namespace Xv6.Fs

open ByteSeq

theorem strncmp_succ (s t : Nat → UInt8) (n i : Nat) :
    strncmp s t n (i + 1) = strncmp (fun j => s (j + 1)) (fun j => t (j + 1)) n i := by
  induction n generalizing i with
  | zero => rfl
  | succ n ih =>
    unfold strncmp
    rw [ih]

theorem strncmp_congr {s s' t t' : Nat → UInt8} {n i : Nat} (hs : ∀ j < i + n, s j = s' j)
    (ht : ∀ j < i + n, t j = t' j) : strncmp s t n i = strncmp s' t' n i := by
  induction n generalizing i with
  | zero => rfl
  | succ n ih =>
    unfold strncmp
    rw [hs i (by omega), ht i (by omega),
      ih (fun j hj => hs j (by omega)) (fun j hj => ht j (by omega))]

theorem cbyte_nil (i : Nat) : cbyte [] i = 0 := rfl

/-- The characters of a name in a field of `DIRSIZ` bytes, which has a terminating
zero only if the name is shorter. -/
def cstr (buf : Nat → UInt8) : Name := ((List.range DIRSIZ).map buf).takeWhile (· ≠ 0)

/-- The bytes that `strncpy(s, t, n)` of `string.c` stores, with `n` bytes left. -/
def strncpy (t : Nat → UInt8) : Nat → List UInt8
  | 0 => []
  | n + 1 => if t 0 ≠ 0 then t 0 :: strncpy (fun i => t (i + 1)) n else List.replicate (n + 1) 0

/-- What a comparison with a field sees of it. -/
theorem strncmp_cbyte_field {a : Name} (ha : 0 ∉ a) (t : Nat → UInt8) (n : Nat) :
    strncmp (cbyte a) t n 0 = 0 ↔ a.take n = ((List.range n).map t).takeWhile (· ≠ 0) := by
  induction n generalizing a t with
  | zero => exact iff_of_true rfl rfl
  | succ n ih =>
    have hrange : (List.range (n + 1)).map t = t 0 :: (List.range n).map (fun j => t (j + 1)) := by
      rw [List.range_succ_eq_map, List.map_cons, List.map_map]
      rfl
    rw [hrange]
    unfold strncmp
    cases a with
    | nil =>
      have hzero : (((0 : UInt8).toNat : Int) - (t 0).toNat = 0) ↔ t 0 = 0 := by
        rw [← UInt8.toNat_inj]
        omega
      rw [if_neg (fun hc => hc.1 rfl), cbyte_nil, List.take_nil, hzero]
      by_cases ht : t 0 = 0 <;> simp [ht]
    | cons x a =>
      have hx : x ≠ 0 := fun h0 => ha (List.mem_cons.mpr (Or.inl h0.symm))
      have hrest := ih (a := a) (fun h => ha (List.mem_cons_of_mem _ h)) (fun j => t (j + 1))
      by_cases hxt : x = t 0
      · rw [if_pos ⟨hx, hxt⟩, strncmp_succ, List.take_succ_cons,
          List.takeWhile_cons_of_pos (by simpa [← hxt] using hx), ← hxt]
        simp only [List.cons.injEq, true_and]
        exact hrest
      · rw [if_neg (fun hc => hxt hc.2)]
        refine iff_of_false ?_ ?_
        · change ¬ ((x.toNat : Int) - (t 0).toNat = 0)
          intro h0
          exact hxt (UInt8.toNat_inj.mp (by omega))
        · rw [List.take_succ_cons]
          by_cases ht : t 0 = 0
          · simp [ht]
          · rw [List.takeWhile_cons_of_pos (by simpa using ht)]
            exact fun heq => hxt (List.cons.inj heq).1

theorem namecmp_field {a : Name} (ha : 0 ∉ a) (t : Nat → UInt8) :
    namecmp (cbyte a) t = 0 ↔ a.take DIRSIZ = cstr t :=
  strncmp_cbyte_field ha t DIRSIZ

theorem zero_notMem_cstr (buf : Nat → UInt8) : 0 ∉ cstr buf := by
  intro h
  have hne := List.mem_takeWhile_imp h
  simp at hne

theorem take_cstr (buf : Nat → UInt8) : (cstr buf).take DIRSIZ = cstr buf := by
  apply List.take_of_length_le
  exact (List.takeWhile_prefix _).length_le.trans (by simp)

/-- Up to its terminating zero a field is its name, and a comparison ends there. -/
theorem strncmp_field (buf t : Nat → UInt8) (n : Nat) :
    strncmp buf t n 0 =
      strncmp (cbyte (((List.range n).map buf).takeWhile (· ≠ 0))) t n 0 := by
  induction n generalizing buf t with
  | zero => rfl
  | succ n ih =>
    have hrange : (List.range (n + 1)).map buf =
        buf 0 :: (List.range n).map (fun j => buf (j + 1)) := by
      rw [List.range_succ_eq_map, List.map_cons, List.map_map]
      rfl
    rw [hrange]
    unfold strncmp
    by_cases hb : buf 0 = 0
    · rw [if_neg (fun hc => hc.1 hb), List.takeWhile_cons_of_neg (by simpa using hb), hb,
        if_neg (fun hc => hc.1 rfl)]
      rfl
    · rw [List.takeWhile_cons_of_pos (by simpa using hb)]
      change (if buf 0 ≠ 0 ∧ buf 0 = t 0 then _ else _) =
        if buf 0 ≠ 0 ∧ buf 0 = t 0 then _ else _
      rw [strncmp_succ, ih, strncmp_succ]
      rfl

/-- Stale bytes after the terminating zero are neither compared nor copied. -/
theorem namecmp_cstr (buf t : Nat → UInt8) : namecmp buf t = namecmp (cbyte (cstr buf)) t :=
  strncmp_field buf t DIRSIZ

theorem strncpy_eq (t : Nat → UInt8) (n : Nat) : strncpy t n =
    (List.range n).map (cbyte (((List.range n).map t).takeWhile (· ≠ 0))) := by
  induction n generalizing t with
  | zero => rfl
  | succ n ih =>
    have hrange (f : Nat → UInt8) :
        (List.range (n + 1)).map f = f 0 :: (List.range n).map (fun j => f (j + 1)) := by
      rw [List.range_succ_eq_map, List.map_cons, List.map_map]
      rfl
    rw [hrange, hrange t]
    unfold strncpy
    by_cases ht : t 0 = 0
    · rw [if_neg (by simpa using ht), List.takeWhile_cons_of_neg (by simpa using ht),
        List.replicate_succ]
      have hzero : (fun j => cbyte [] (j + 1)) = fun _ => 0 := rfl
      rw [hzero, List.map_const', List.length_range]
      rfl
    · rw [if_pos ht, List.takeWhile_cons_of_pos (by simpa using ht), ih]
      rfl

theorem strncpy_cstr (buf : Nat → UInt8) :
    strncpy buf DIRSIZ = (List.range DIRSIZ).map (cbyte (cstr buf)) :=
  strncpy_eq buf DIRSIZ

theorem field_cbyte {b : Name} (hb : 0 ∉ b) (n : Nat) :
    ((List.range n).map (cbyte b)).takeWhile (· ≠ 0) = b.take n := by
  induction n generalizing b with
  | zero => rfl
  | succ n ih =>
    rw [List.range_succ_eq_map, List.map_cons, List.map_map]
    cases b with
    | nil => rfl
    | cons y b =>
      have hy : y ≠ 0 := fun h0 => hb (List.mem_cons.mpr (Or.inl h0.symm))
      have hrest := ih (b := b) (fun h => hb (List.mem_cons_of_mem _ h))
      rw [List.take_succ_cons, ← hrest]
      exact List.takeWhile_cons_of_pos (decide_eq_true hy)

theorem namecmp_eq_zero_iff {a b : Name} (ha : 0 ∉ a) (hb : 0 ∉ b) :
    namecmp (cbyte a) (cbyte b) = 0 ↔ a.take DIRSIZ = b.take DIRSIZ := by
  rw [namecmp_field ha, cstr, field_cbyte hb]

/-! ### Directory entries -/

theorem deInum_dirent {inum : Nat} (h : inum < 2 ^ 16) (name : Name) :
    deInum (dirent inum name) = inum := by
  have hbytes : leNat (dirent inum name) 2 = leNat (leByte inum) 2 :=
    leNat_congr fun i hi => if_pos hi
  unfold deInum
  rw [hbytes, leNat_leByte, Nat.mod_eq_of_lt (by simpa using h)]

theorem deName_dirent (inum : Nat) (name : Name) (i : Nat) :
    deName (dirent inum name) i = cbyte name i := by
  unfold deName dirent
  rw [if_neg (by omega), Nat.add_sub_cancel_left]

/-- What a lookup sees of an entry with these bytes. -/
theorem deInum_congr {de de' : Nat → UInt8} (h : ∀ j < DIRENT, de j = de' j) :
    deInum de = deInum de' :=
  leNat_congr fun i hi => h i (hi.trans (by decide))

theorem namecmp_deName_congr {de de' : Nat → UInt8} (h : ∀ j < DIRENT, de j = de' j)
    (s : Nat → UInt8) : namecmp s (deName de) = namecmp s (deName de') := by
  refine strncmp_congr (fun _ _ => rfl) fun j hj => h (2 + j) ?_
  unfold DIRSIZ at hj
  unfold DIRENT
  omega

/-! ### Path elements -/

/-- A path of one element behind a slash. -/
theorem skipelem_root {name : Name} (hne : name ≠ []) (hslash : slash ∉ name) (hzero : 0 ∉ name) :
    skipelem (slash :: name) = some (name.take DIRSIZ, []) := by
  obtain ⟨x, rest, rfl⟩ := List.exists_cons_of_ne_nil hne
  have hx : x ≠ slash := fun h => hslash (List.mem_cons.mpr (Or.inl h.symm))
  have hx0 : x ≠ 0 := fun h => hzero (List.mem_cons.mpr (Or.inl h.symm))
  have hdrop : (slash :: x :: rest).dropWhile (· == slash) = x :: rest := by
    rw [List.dropWhile_cons_of_pos (by simp), List.dropWhile_cons_of_neg (by simpa using hx)]
  have hall : (x :: rest).takeWhile (fun c => c != slash && c != 0) = x :: rest := by
    rw [List.takeWhile_eq_self_iff]
    intro c hc
    have hc1 : c ≠ slash := fun h => hslash (h ▸ hc)
    have hc2 : c ≠ 0 := fun h => hzero (h ▸ hc)
    simp [hc1, hc2]
  unfold skipelem
  simp only [hdrop, hall, List.drop_length, List.dropWhile_nil]
  rw [if_neg]
  exact hx0

end Xv6.Fs
