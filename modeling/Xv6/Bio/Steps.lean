import Xv6.Bio.Basic

/-!
The state that each call on the buffer cache leaves, for a cache in order: one
buffer for each block and all buffers on the list.
-/

namespace Xv6.Bio

open Prog

/-- One buffer for each block of a real device, and all buffers on the list. -/
structure CacheOk (c : Bcache) : Prop where
  unique : ∀ i j, (c.buf i).dev ≠ 0 → (c.buf i).dev = (c.buf j).dev →
    (c.buf i).blockno = (c.buf j).blockno → i = j
  ring : ∃ as, c.links.IsRing as ∧ ∀ i, i ∈ as

@[simp] theorem set_buf (c : Bcache) (i j : Fin NBUF) (x : Buf) :
    (c.set i x).buf j = if j = i then x else c.buf j := by
  simp [Bcache.set, Function.update_apply]

@[simp] theorem set_links (c : Bcache) (i : Fin NBUF) (x : Buf) :
    (c.set i x).links = c.links := rfl

@[simp] theorem set_set (c : Bcache) (i : Fin NBUF) (x y : Buf) :
    (c.set i x).set i y = c.set i y := by
  simp [Bcache.set]

@[simp] theorem store_cache (s : Bio) (c : Bcache) : (s.store c).cache = c := rfl

@[simp] theorem wp_getBuf {Q : Buf → Bio → Prop} {E : Fault → Bio → Prop} {s : Bio}
    (i : Fin NBUF) : wp (getBuf i) Q E s ↔ Q (s.cache.buf i) s := Iff.rfl

@[simp] theorem wp_setBuf {Q : Unit → Bio → Prop} {E : Fault → Bio → Prop} {s : Bio}
    (i : Fin NBUF) (x : Buf) :
    wp (setBuf i x) Q E s ↔ Q () (s.store (s.cache.set i x)) := Iff.rfl

variable {c : Bcache}

/-- A buffer that stays with its block keeps the cache in order. -/
theorem CacheOk.set_same (h : CacheOk c) {i : Fin NBUF} {x : Buf} (hdev : x.dev = (c.buf i).dev)
    (hblock : x.blockno = (c.buf i).blockno) : CacheOk (c.set i x) := by
  refine ⟨?_, h.ring⟩
  intro j k
  have hj : ((c.set i x).buf j).dev = (c.buf j).dev ∧
      ((c.set i x).buf j).blockno = (c.buf j).blockno := by
    rw [set_buf]
    split
    · next heq => subst heq; exact ⟨hdev, hblock⟩
    · exact ⟨rfl, rfl⟩
  have hk : ((c.set i x).buf k).dev = (c.buf k).dev ∧
      ((c.set i x).buf k).blockno = (c.buf k).blockno := by
    rw [set_buf]
    split
    · next heq => subst heq; exact ⟨hdev, hblock⟩
    · exact ⟨rfl, rfl⟩
  rw [hj.1, hj.2, hk.1, hk.2]
  exact h.unique j k

/-- A buffer that moves to a block without one keeps the cache in order. -/
theorem CacheOk.set_fresh (h : CacheOk c) {i : Fin NBUF} {x : Buf}
    (hfresh : ∀ j, ¬ ((c.buf j).dev = x.dev ∧ (c.buf j).blockno = x.blockno)) :
    CacheOk (c.set i x) := by
  refine ⟨?_, h.ring⟩
  intro j k hne hdev hblock
  rw [set_buf] at hne hdev hblock
  rw [set_buf] at hdev hblock
  split at hdev <;> split at hdev
  · next hj hk => rw [hj, hk]
  · next hj hk =>
      simp only [if_pos hj, if_neg hk] at hblock
      exact absurd ⟨hdev.symm, hblock.symm⟩ (hfresh k)
  · next hj hk => simp only [if_neg hj, if_pos hk] at hblock; exact absurd ⟨hdev, hblock⟩ (hfresh j)
  · next hj hk =>
      simp only [if_neg hj, if_neg hk] at hblock hne
      exact h.unique j k hne hdev hblock

theorem CacheOk.to_front (h : CacheOk c) (i : Fin NBUF) :
    CacheOk { c with links := (c.links.unlink i).pushFront i } := by
  obtain ⟨as, hring, hall⟩ := h.ring
  refine ⟨h.unique, ?_⟩
  obtain ⟨xs, ys, rfl⟩ := List.append_of_mem (hall i)
  have hnot : i ∉ xs ++ ys := by
    have hperm := List.nodup_middle.mp hring.nodup
    exact (List.nodup_cons.mp hperm).1
  refine ⟨i :: (xs ++ ys), hring.unlink.pushFront hnot, ?_⟩
  intro j
  have hj := hall j
  simp only [List.mem_append, List.mem_cons] at hj ⊢
  tauto

section Calls

variable {s : Bio} {i : Fin NBUF} {pid dev b : Nat} {E : Fault → Bio → Prop}

theorem CacheOk.length_lt {c : Bcache} {as : List (Fin NBUF)} (hring : c.links.IsRing as) :
    as.length < NBUF + 1 := by
  have hcard := hring.nodup.length_le_card
  simpa using Nat.lt_succ_of_le hcard

/-- The state after `bget` found buffer `i`. -/
def found (s : Bio) (pid : Nat) (i : Fin NBUF) : Bio :=
  (s.store (s.cache.set i { s.cache.buf i with refcnt := 1 })).store
    (s.cache.set i { s.cache.buf i with refcnt := 1, lock := some pid })

/-- `bget` finds the buffer of a cached block and locks it. -/
theorem CacheOk.wp_bget_found (h : CacheOk s.cache) (hdev : dev ≠ 0)
    (hi : (s.cache.buf i).dev = dev) (hb : (s.cache.buf i).blockno = b)
    (href : (s.cache.buf i).refcnt = 0) (hlock : (s.cache.buf i).lock = none) :
    wp (bget pid dev b) (fun j s' => j = i ∧ s' = found s pid i) E s := by
  obtain ⟨as, hring, hall⟩ := h.ring
  have hfind : as.find? (fun j => (s.cache.buf j).dev == dev && (s.cache.buf j).blockno == b) =
      some i := by
    obtain ⟨j, hj⟩ := Option.isSome_iff_exists.mp (List.find?_isSome.mpr
      ⟨i, hall i, by simp [hi, hb]⟩ : (as.find? (fun j => (s.cache.buf j).dev == dev &&
        (s.cache.buf j).blockno == b)).isSome)
    have hmatch := List.find?_some hj
    simp only [Bool.and_eq_true, beq_iff_eq] at hmatch
    rw [hj, h.unique j i (by omega) (by omega) (by omega)]
  simp [bget, hring.search_next _ (length_lt hring), hfind, acquiresleep, href, hlock, found]

/-- Buffer `i` as `bget` hands it out for a block that was not cached. -/
def recycledBuf (x : Buf) (pid dev b : Nat) : Buf :=
  { x with
    dev := dev, blockno := b, valid := false, dirty := false, refcnt := 1, lock := some pid }

/-- The state after `bget` recycled buffer `i`. -/
def recycle (s : Bio) (pid dev b : Nat) (i : Fin NBUF) : Bio :=
  let x : Buf := { s.cache.buf i with
    dev := dev, blockno := b, valid := false, dirty := false, refcnt := 1 }
  (Bio.store { s with recycled := s.recycled ++ [s.cache.buf i] } (s.cache.set i x)).store
    (s.cache.set i (recycledBuf (s.cache.buf i) pid dev b))

/-- `bget` takes a buffer that is neither in use nor dirty for a block that is not
cached, and stops if there is none. -/
theorem CacheOk.wp_bget_recycle (h : CacheOk s.cache)
    (hnot : ∀ j, ¬ ((s.cache.buf j).dev = dev ∧ (s.cache.buf j).blockno = b))
    (hlock : ∀ j, (s.cache.buf j).refcnt = 0 → (s.cache.buf j).lock = none) :
    wp (bget pid dev b)
      (fun i s' => (s.cache.buf i).refcnt = 0 ∧ (s.cache.buf i).dirty = false ∧
        s' = recycle s pid dev b i)
      (fun err s' => err = .bgetNoBuffers ∧ s' = s ∧
        ∀ i, ¬ ((s.cache.buf i).refcnt = 0 ∧ (s.cache.buf i).dirty = false)) s := by
  obtain ⟨as, hring, hall⟩ := h.ring
  have hfind : as.find? (fun j => (s.cache.buf j).dev == dev &&
      (s.cache.buf j).blockno == b) = none := by
    rw [List.find?_eq_none]
    intro j _ hj
    exact hnot j (by simpa using hj)
  cases hfree : as.reverse.find? (fun j => (s.cache.buf j).refcnt == 0 &&
      !(s.cache.buf j).dirty) with
  | none =>
    have hused : ∀ i, ¬ ((s.cache.buf i).refcnt = 0 ∧ (s.cache.buf i).dirty = false) := by
      intro i hi
      have hi' := List.find?_eq_none.mp hfree i (List.mem_reverse.mpr (hall i))
      exact hi' (by simp [hi.1, hi.2])
    simpa [bget, hring.search_next _ (length_lt hring), hring.search_prev _ (length_lt hring),
      hfind, hfree] using hused
  | some i =>
    obtain ⟨href, hdirty⟩ : (s.cache.buf i).refcnt = 0 ∧ (s.cache.buf i).dirty = false := by
      simpa using List.find?_some hfree
    simp [bget, hring.search_next _ (length_lt hring), hring.search_prev _ (length_lt hring),
      hfind, hfree, acquiresleep, hlock i href, href, hdirty, recycle, recycledBuf, Bio.store]

/-- `iderw` on a buffer that is not valid yet. -/
theorem wp_iderw_read {x : Buf} {Q : Unit → Bio → Prop} (hx : s.cache.buf i = x)
    (hlock : x.lock = some pid) (hv : x.valid = false) (hd : x.dirty = false) :
    wp (iderw pid i) Q E s ↔
      if x.dev ≠ 1 then E .iderwNotDisk1 s
      else if s.disksize ≤ x.blockno then E .iderwOutOfRange s
      else Q () (s.store (s.cache.set i { x with data := s.disk x.blockno, valid := true })) := by
  simp only [iderw, wp_bind, wp_getBuf, wp_gets, hx, hlock, hv, hd, ne_eq, not_true_eq_false,
    if_false, Bool.false_and, Bool.false_eq_true]
  split
  · simp
  · split <;> simp

/-- The state after `bwrite` of buffer `i`. -/
def flushed (s : Bio) (i : Fin NBUF) : Bio :=
  Bio.store { s.store (s.cache.set i { s.cache.buf i with dirty := true }) with
    disk := Function.update s.disk (s.cache.buf i).blockno (s.cache.buf i).data
    writes := s.writes ++ [((s.cache.buf i).blockno, (s.cache.buf i).data)] }
    (s.cache.set i { s.cache.buf i with dirty := false, valid := true })

theorem wp_bwrite_flushed (hlock : (s.cache.buf i).lock = some pid) (hdev : (s.cache.buf i).dev = 1)
    (hrange : (s.cache.buf i).blockno < s.disksize) :
    wp (bwrite pid i) (fun _ s' => s' = flushed s i) E s := by
  simp [bwrite, iderw, hlock, hdev, Nat.not_le.mpr hrange, Bio.store, flushed]

/-- The state after `brelse` of buffer `i` by its only holder. -/
def released (s : Bio) (i : Fin NBUF) : Bio :=
  let x : Buf := { s.cache.buf i with lock := none, refcnt := 0 }
  ((s.store (s.cache.set i { s.cache.buf i with lock := none })).store (s.cache.set i x)).store
    { s.cache.set i x with links := (s.cache.links.unlink i).pushFront i }

theorem wp_brelse_released (hlock : (s.cache.buf i).lock = some pid)
    (href : (s.cache.buf i).refcnt = 1) :
    wp (brelse pid i) (fun _ s' => s' = released s i) E s := by
  simp [brelse, hlock, href, released]

end Calls

end Xv6.Bio
