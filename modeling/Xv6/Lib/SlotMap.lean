import Mathlib.Data.List.Nodup

/-!
A finite map kept in a table of slots. A slot is free or holds a key with its
value; a new key goes into the first free slot, or into a new slot at the end
if there is none, and a key is removed by freeing its slot.
-/

namespace SlotMap

variable {K V : Type}

abbrev Table (K V : Type) := List (Option (K × V))

def keys (t : Table K V) : List K := t.filterMap (Option.map Prod.fst)

/-- No key has two slots. -/
def Distinct (t : Table K V) : Prop := (keys t).Nodup

/-- The first free slot. -/
def freeSlot (t : Table K V) : Option Nat := t.findIdx? Option.isNone

def insert (k : K) (v : V) : Table K V → Table K V
  | [] => [some (k, v)]
  | none :: t => some (k, v) :: t
  | some e :: t => some e :: insert k v t

def clear (t : Table K V) (j : Nat) : Table K V := t.set j none

section Slots

variable {t : Table K V} {k : K} {v : V} {j : Nat}

theorem keys_insert_perm : (keys (insert k v t)).Perm (k :: keys t) := by
  induction t with
  | nil => exact List.Perm.refl _
  | cons e t ih =>
    rcases e with _ | ⟨k', w⟩
    · exact List.Perm.refl _
    · exact (ih.cons k').trans (List.Perm.swap k k' _)

theorem insert_eq : insert k v t = match freeSlot t with
    | some j => t.set j (some (k, v))
    | none => t ++ [some (k, v)] := by
  induction t with
  | nil => rfl
  | cons e t ih =>
    rcases e with _ | e
    · rfl
    · have hfree : freeSlot (some e :: t) = (freeSlot t).map (· + 1) := by
        simp [freeSlot, List.findIdx?_cons]
      rw [insert, ih, hfree]
      cases freeSlot t <;> rfl

theorem keys_clear_sublist : (keys (clear t j)).Sublist (keys t) := by
  induction t generalizing j with
  | nil => exact List.Sublist.refl _
  | cons e t ih =>
    cases j with
    | zero =>
      rcases e with _ | e
      · exact List.Sublist.refl _
      · exact List.sublist_cons_self _ _
    | succ j =>
      rcases e with _ | e
      · exact ih
      · exact ih.cons_cons _

theorem Distinct.clear (h : Distinct t) (j : Nat) : Distinct (SlotMap.clear t j) :=
  h.sublist keys_clear_sublist

end Slots

section Lookup

variable [DecidableEq K]

instance (t : Table K V) : Decidable (Distinct t) := inferInstanceAs (Decidable (List.Nodup _))

def holds (k : K) (e : Option (K × V)) : Bool := e.any (fun x => decide (x.1 = k))

/-- The first slot with the key. -/
def slotOf (t : Table K V) (k : K) : Option Nat := t.findIdx? (holds k)

def lookup (k : K) : Table K V → Option V
  | [] => none
  | none :: t => lookup k t
  | some (k', v) :: t => if k' = k then some v else lookup k t

variable {t : Table K V} {k k' : K} {v : V} {j : Nat}

theorem lookup_eq_none_iff : lookup k t = none ↔ k ∉ keys t := by
  induction t with
  | nil => simp [lookup, keys]
  | cons e t ih =>
    rcases e with _ | ⟨k', v⟩
    · simpa [lookup, keys] using ih
    · by_cases hk : k' = k
      · simp [lookup, keys, hk]
      · simpa [lookup, keys, hk, Ne.symm hk] using ih

theorem slotOf_eq_none_iff : slotOf t k = none ↔ lookup k t = none := by
  induction t with
  | nil => simp [slotOf, lookup]
  | cons e t ih =>
    unfold slotOf at ih ⊢
    rcases e with _ | ⟨k', v⟩
    · simpa [List.findIdx?_cons, holds, lookup] using ih
    · by_cases hk : k' = k
      · simp [List.findIdx?_cons, holds, lookup, hk]
      · simpa [List.findIdx?_cons, holds, lookup, hk] using ih

theorem slotOf_cons_none : slotOf (none :: t) k = (slotOf t k).map (· + 1) := by
  simp [slotOf, List.findIdx?_cons, holds]

theorem slotOf_cons_of_ne (hk : k' ≠ k) :
    slotOf (some (k', v) :: t) k = (slotOf t k).map (· + 1) := by
  simp [slotOf, List.findIdx?_cons, holds, hk]

theorem slotOf_cons_self : slotOf (some (k, v) :: t) k = some 0 := by
  simp [slotOf, List.findIdx?_cons, holds]

/-- The slot of a key holds its value. -/
theorem getElem?_slotOf (h : slotOf t k = some j) :
    ∃ v, t[j]? = some (some (k, v)) ∧ lookup k t = some v := by
  induction t generalizing j with
  | nil => cases h
  | cons e t ih =>
    rcases e with _ | ⟨k', v⟩
    · rw [slotOf_cons_none, Option.map_eq_some_iff] at h
      obtain ⟨j, hj, rfl⟩ := h
      exact ih hj
    · by_cases hk : k' = k
      · subst hk
        rw [slotOf_cons_self, Option.some_inj] at h
        subst h
        exact ⟨v, rfl, by simp [lookup]⟩
      · rw [slotOf_cons_of_ne hk, Option.map_eq_some_iff] at h
        obtain ⟨j, hj, rfl⟩ := h
        obtain ⟨w, hget, hlook⟩ := ih hj
        exact ⟨w, hget, by rw [lookup, if_neg hk, hlook]⟩

theorem lookup_insert_self (h : lookup k t = none) : lookup k (insert k v t) = some v := by
  induction t with
  | nil => simp [insert, lookup]
  | cons e t ih =>
    rcases e with _ | ⟨k', w⟩
    · simp [insert, lookup]
    · by_cases hk : k' = k
      · simp [lookup, hk] at h
      · rw [lookup, if_neg hk] at h
        rw [insert, lookup, if_neg hk, ih h]

theorem lookup_insert_of_ne (hk : k' ≠ k) : lookup k' (insert k v t) = lookup k' t := by
  induction t with
  | nil => simp [insert, lookup, Ne.symm hk]
  | cons e t ih =>
    rcases e with _ | ⟨k'', w⟩
    · simp [insert, lookup, Ne.symm hk]
    · rw [insert, lookup, lookup, ih]

theorem lookup_insert (h : lookup k t = none) (k' : K) :
    lookup k' (insert k v t) = if k' = k then some v else lookup k' t := by
  by_cases hk : k' = k
  · subst hk
    rw [if_pos rfl, lookup_insert_self h]
  · rw [if_neg hk, lookup_insert_of_ne hk]

theorem Distinct.insert (h : Distinct t) (hnew : lookup k t = none) :
    Distinct (SlotMap.insert k v t) := by
  unfold Distinct
  rw [keys_insert_perm.nodup_iff, List.nodup_cons]
  exact ⟨lookup_eq_none_iff.mp hnew, h⟩

/-- Freeing the slot of a key removes this key only. -/
theorem lookup_clear (h : Distinct t) (hj : slotOf t k = some j) (k' : K) :
    lookup k' (clear t j) = if k' = k then none else lookup k' t := by
  induction t generalizing j with
  | nil => cases hj
  | cons e t ih =>
    rcases e with _ | ⟨l, w⟩
    · rw [slotOf_cons_none, Option.map_eq_some_iff] at hj
      obtain ⟨j, hj, rfl⟩ := hj
      exact ih h hj
    · have hnodup : l ∉ keys t ∧ (keys t).Nodup := List.nodup_cons.mp h
      by_cases hl : l = k
      · subst hl
        rw [slotOf_cons_self, Option.some_inj] at hj
        subst hj
        have hnone : lookup l t = none := lookup_eq_none_iff.mpr hnodup.1
        change lookup k' t = _
        by_cases hk : k' = l
        · rw [if_pos hk, hk, hnone]
        · rw [if_neg hk, lookup, if_neg (Ne.symm hk)]
      · rw [slotOf_cons_of_ne hl, Option.map_eq_some_iff] at hj
        obtain ⟨j, hj, rfl⟩ := hj
        have hrest := ih hnodup.2 hj
        change lookup k' (some (l, w) :: clear t j) = _
        rw [lookup, lookup, hrest]
        by_cases hlk : l = k'
        · subst hlk
          rw [if_pos rfl, if_neg hl, if_pos rfl]
        · rw [if_neg hlk, if_neg hlk]

end Lookup

end SlotMap
