import Mathlib.Data.List.Induction
import Mathlib.Logic.Function.Basic

/-!
Circular doubly linked lists through a head node, as kernels write them: every
node has a `next` and a `prev` pointer, and the head (`none`) closes the ring.
The pointer stores are kept in their program order.
-/

/-- The `next` and `prev` fields of all nodes. `none` is the list head. -/
structure Links (α : Type) where
  next : Option α → Option α
  prev : Option α → Option α

namespace Links

variable {α : Type}

/-- The loop `for (x = start; x != head; x = follow x) if (p x) return x;`.
The outer `none` says that the given number of steps did not end it. -/
def search (follow : Option α → Option α) (p : α → Bool) :
    Nat → Option α → Option (Option α)
  | 0, _ => none
  | _ + 1, none => some none
  | k + 1, some a => if p a then some (some a) else search follow p k (follow (some a))

/-- Both pointer fields connect `x`, the nodes `as` and `y` in this order. -/
def Seg (l : Links α) : Option α → List α → Option α → Prop
  | x, [], y => l.next x = y ∧ l.prev y = x
  | x, a :: as, y => l.next x = some a ∧ l.prev (some a) = x ∧ l.Seg (some a) as y

/-- The ring through the head that holds the nodes `as`, each once. -/
structure IsRing (l : Links α) (as : List α) : Prop where
  nodup : as.Nodup
  seg : l.Seg none as none

variable {l l' : Links α} {as bs : List α} {x y : Option α} {b : α}

theorem seg_append :
    l.Seg x (as ++ b :: bs) y ↔ l.Seg x as (some b) ∧ l.Seg (some b) bs y := by
  induction as generalizing x with
  | nil => simp [Seg, and_assoc]
  | cons a as ih => simp [Seg, ih, and_assoc]

/-- A segment only depends on the `next` fields of its nodes but the last and
the `prev` fields of its nodes but the first. -/
theorem Seg.congr (h : l.Seg x as y) (hx : l'.next x = l.next x)
    (hnext : ∀ a ∈ as, l'.next (some a) = l.next (some a))
    (hprev : ∀ a ∈ as, l'.prev (some a) = l.prev (some a))
    (hy : l'.prev y = l.prev y) : l'.Seg x as y := by
  induction as generalizing x with
  | nil => exact ⟨hx.trans h.1, hy.trans h.2⟩
  | cons a as ih =>
    obtain ⟨hxa, hax, hseg⟩ := h
    refine ⟨hx.trans hxa, (hprev a (by simp)).trans hax, ?_⟩
    exact ih hseg (hnext a (by simp)) (fun c hc => hnext c (by simp [hc]))
      (fun c hc => hprev c (by simp [hc]))

/-- The node before `y` is the last one of the segment, or its start. -/
theorem Seg.prev_end (h : l.Seg x as y) : l.prev y ∈ x :: as.map some := by
  induction as generalizing x with
  | nil => simp [h.2]
  | cons a as ih => exact List.mem_cons_of_mem _ (ih h.2.2)

/-! ### Walking the ring -/

/-- The same segment read the other way round. -/
theorem Seg.reverse (h : l.Seg x as y) : Seg ⟨l.prev, l.next⟩ y as.reverse x := by
  induction as generalizing x with
  | nil => exact ⟨h.2, h.1⟩
  | cons a as ih =>
    obtain ⟨hxa, hax, hseg⟩ := h
    rw [List.reverse_cons]
    exact seg_append.mpr ⟨ih hseg, hax, hxa⟩

variable {fuel : Nat}

theorem Seg.search_next (h : l.Seg x as none) (p : α → Bool) (hfuel : as.length < fuel) :
    search l.next p fuel (l.next x) = some (as.find? p) := by
  induction as generalizing x fuel with
  | nil =>
    obtain ⟨k, rfl⟩ : ∃ k, fuel = k + 1 := ⟨fuel - 1, by omega⟩
    simp [h.1, search]
  | cons a as ih =>
    obtain ⟨hxa, -, hseg⟩ := h
    obtain ⟨k, rfl⟩ : ∃ k, fuel = k + 1 := ⟨fuel - 1, by omega⟩
    have hk : as.length < k := by
      simp only [List.length_cons] at hfuel
      omega
    rw [hxa, search, List.find?_cons]
    split <;> simp [*]

/-- Following `next` from the head visits the nodes in ring order. -/
theorem IsRing.search_next (h : l.IsRing as) (p : α → Bool) (hfuel : as.length < fuel) :
    search l.next p fuel (l.next none) = some (as.find? p) :=
  h.seg.search_next p hfuel

/-- Following `prev` from the head visits them in the opposite order. -/
theorem IsRing.search_prev (h : l.IsRing as) (p : α → Bool) (hfuel : as.length < fuel) :
    search l.prev p fuel (l.prev none) = some (as.reverse.find? p) :=
  h.seg.reverse.search_next p (by simpa using hfuel)

/-! ### Pointer surgery -/

variable [DecidableEq α]

/-- `x->next = y`. -/
def setNext (l : Links α) (x y : Option α) : Links α :=
  { l with next := Function.update l.next x y }

/-- `x->prev = y`. -/
def setPrev (l : Links α) (x y : Option α) : Links α :=
  { l with prev := Function.update l.prev x y }

/-- The empty ring: `head.prev = &head; head.next = &head;` -/
def clear (l : Links α) : Links α := (l.setPrev none none).setNext none none

/-- `b->next->prev = b->prev; b->prev->next = b->next;` -/
def unlink (l : Links α) (b : α) : Links α :=
  let l := l.setPrev (l.next (some b)) (l.prev (some b))
  l.setNext (l.prev (some b)) (l.next (some b))

/-- Put `b` right after the head: the four stores
`b->next = head.next; b->prev = &head; head.next->prev = b; head.next = b;` -/
def pushFront (l : Links α) (b : α) : Links α :=
  let l := l.setNext (some b) (l.next none)
  let l := l.setPrev (some b) none
  let l := l.setPrev (l.next none) (some b)
  l.setNext none (some b)

theorem unlink_prev (l : Links α) (b : α) :
    (l.unlink b).prev = Function.update l.prev (l.next (some b)) (l.prev (some b)) := rfl

theorem unlink_next (hn : l.next (some b) ≠ some b) :
    (l.unlink b).next = Function.update l.next (l.prev (some b)) (l.next (some b)) := by
  simp [unlink, setNext, setPrev, Function.update_of_ne hn.symm]

theorem isRing_clear (l : Links α) : l.clear.IsRing [] := by
  refine ⟨List.nodup_nil, ?_⟩
  simp [Seg, clear, setNext, setPrev]

/-- Cutting `b` out makes the segment before it end at its successor. -/
private theorem seg_unlink_left (h : l.Seg x as (some b)) (hnodup : as.Nodup)
    (hx : ∀ a ∈ as, x ≠ some a) (hn : l.next (some b) ≠ some b)
    (hns : ∀ a ∈ as, l.next (some b) ≠ some a) :
    (l.unlink b).Seg x as (l.next (some b)) := by
  induction as generalizing x with
  | nil =>
    obtain ⟨-, hpx⟩ := h
    simp [Seg, unlink_prev, unlink_next hn, hpx]
  | cons a as ih =>
    obtain ⟨hxa, hax, hseg⟩ := h
    obtain ⟨ha, hnodup⟩ := List.nodup_cons.mp hnodup
    have hxp : x ≠ l.prev (some b) := by
      intro heq
      obtain ⟨c, hc, hcx⟩ := List.mem_map.mp (show l.prev (some b) ∈ (a :: as).map some from
        hseg.prev_end)
      exact hx c hc (heq.trans hcx.symm)
    refine ⟨?_, ?_, ?_⟩
    · rw [unlink_next hn, Function.update_of_ne hxp, hxa]
    · rw [unlink_prev, Function.update_of_ne (hns a (by simp)).symm, hax]
    · apply ih hseg hnodup
      · rintro c hc heq
        exact ha (Option.some.inj heq ▸ hc)
      · exact fun c hc => hns c (by simp [hc])

theorem IsRing.unlink (h : l.IsRing (as ++ b :: bs)) : (l.unlink b).IsRing (as ++ bs) := by
  obtain ⟨hnodup, hseg⟩ := h
  obtain ⟨hleft, hright⟩ := seg_append.mp hseg
  obtain ⟨has, hbbs, hdisj⟩ := List.nodup_append.mp hnodup
  obtain ⟨hb, hbs⟩ := List.nodup_cons.mp hbbs
  refine ⟨List.nodup_append.mpr ⟨has, hbs, fun a ha c hc => hdisj a ha c (by simp [hc])⟩, ?_⟩
  cases bs with
  | nil =>
    have hn : l.next (some b) = none := hright.1
    have hl := seg_unlink_left hleft has (by simp) (by simp [hn]) (by simp [hn])
    simpa [hn] using hl
  | cons c cs =>
    obtain ⟨hn, -, hrest⟩ := hright
    have hnb : l.next (some b) ≠ some b := by
      intro heq
      rw [hn] at heq
      exact hb (by simp [Option.some.inj heq])
    have hc_as : ∀ a ∈ as, c ≠ a := fun a ha heq => hdisj a ha c (by simp) heq.symm
    have hl := seg_unlink_left hleft has (by simp) hnb (by simpa [hn] using hc_as)
    rw [hn] at hl
    refine seg_append.mpr ⟨hl, ?_⟩
    -- the stores change `next` of a node before `b` and `prev` of `c` only
    have hnext (d : α) (hd : d ∈ c :: cs) :
        (l.unlink b).next (some d) = l.next (some d) := by
      have hne : some d ≠ l.prev (some b) := by
        intro heq
        have hmem := hleft.prev_end
        rw [← heq, List.mem_cons, List.mem_map] at hmem
        obtain hnil | ⟨a, ha, had⟩ := hmem
        · exact absurd hnil (by simp)
        · exact hdisj a ha d (List.mem_cons_of_mem _ hd) (Option.some.inj had)
      rw [unlink_next hnb, Function.update_of_ne hne]
    refine hrest.congr (hnext c (by simp)) (fun d hd => hnext d (by simp [hd])) ?_ ?_
    · intro d hd
      have hne : some d ≠ l.next (some b) := by
        rw [hn]
        intro heq
        exact (List.nodup_cons.mp hbs).1 (Option.some.inj heq ▸ hd)
      rw [unlink_prev, Function.update_of_ne hne]
    · rw [unlink_prev, hn, Function.update_of_ne (by simp)]

theorem IsRing.pushFront (h : l.IsRing as) (hb : b ∉ as) :
    (l.pushFront b).IsRing (b :: as) := by
  obtain ⟨hnodup, hseg⟩ := h
  refine ⟨List.nodup_cons.mpr ⟨hb, hnodup⟩, ?_⟩
  cases as with
  | nil =>
    obtain ⟨hn, -⟩ := hseg
    simp [Seg, Links.pushFront, setNext, setPrev, hn]
  | cons c cs =>
    obtain ⟨hn, -, hrest⟩ := hseg
    have hnb : ∀ d ∈ c :: cs, d ≠ b := by
      rintro d hd rfl
      exact hb hd
    have hcb : c ≠ b := hnb c (by simp)
    refine ⟨?_, ?_, ?_, ?_, ?_⟩
    · simp [Links.pushFront, setNext, setPrev]
    · simp [Links.pushFront, setNext, setPrev, hn, Ne.symm hcb]
    · simp [Links.pushFront, setNext, setPrev, hn]
    · simp [Links.pushFront, setNext, setPrev, hn]
    · refine hrest.congr ?_ (fun d hd => ?_) (fun d hd => ?_) ?_
      · simp [Links.pushFront, setNext, setPrev, hcb]
      · simp [Links.pushFront, setNext, setPrev, hnb d (by simp [hd])]
      · have hdc : d ≠ c := fun heq => (List.nodup_cons.mp hnodup).1 (heq ▸ hd)
        simp [Links.pushFront, setNext, setPrev, hnb d (by simp [hd]), hn, hdc]
      · simp [Links.pushFront, setNext, setPrev, hn]

/-- Pushed one after the other, the last one comes first. -/
theorem IsRing.pushAll (h : l.IsRing as) {bs : List α} (hnodup : bs.Nodup)
    (hdisj : ∀ b ∈ bs, b ∉ as) :
    (bs.foldl Links.pushFront l).IsRing (bs.reverse ++ as) := by
  induction bs generalizing l as with
  | nil => exact h
  | cons b bs ih =>
    obtain ⟨hb, hnodup⟩ := List.nodup_cons.mp hnodup
    have hdisj' : ∀ d ∈ bs, d ∉ b :: as := by
      intro d hd
      rw [List.mem_cons, not_or]
      exact ⟨fun heq => hb (heq ▸ hd), hdisj d (List.mem_cons_of_mem _ hd)⟩
    simpa using ih (h.pushFront (hdisj b List.mem_cons_self)) hnodup hdisj'

end Links
