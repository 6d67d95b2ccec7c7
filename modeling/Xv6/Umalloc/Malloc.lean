import Xv6.Umalloc.FreeList

/-!
The loop of `malloc`: how it takes a block, or a part of one, from the free list,
and when it finds none.
-/

namespace Xv6.Umalloc

open Prog Transition

/-! ### More rounds -/

section Rounds

variable {h : Heap}

variable {rounds rounds' : Nat} {r : Nat × Heap}

section

variable (hle : rounds ≤ rounds')
include hle

theorem search_mono {bp p q : Nat} (hfound : h.search bp rounds p = some q) :
    h.search bp rounds' p = some q := by
  induction rounds generalizing p rounds' with
  | zero => cases hfound
  | succ rounds ih =>
    obtain ⟨rounds', rfl⟩ := Nat.exists_eq_succ_of_ne_zero (show rounds' ≠ 0 by omega)
    unfold Heap.search at hfound ⊢
    split
    · next hb => rwa [if_pos hb] at hfound
    · next hb =>
        rw [if_neg hb] at hfound
        exact ih (by omega) hfound

theorem free_mono {h' : Heap} {ap : Nat} (hfree : h.free rounds ap = some h') :
    h.free rounds' ap = some h' := by
  unfold Heap.free at *
  dsimp only at *
  obtain ⟨p, hp, hp'⟩ := Option.bind_eq_some_iff.mp hfree
  exact Option.bind_eq_some_iff.mpr ⟨p, search_mono hle hp, hp'⟩

theorem morecore_mono {nu : Nat} {answer : Option Nat}
    (hmore : h.morecore rounds nu answer = some r) : h.morecore rounds' nu answer = some r := by
  unfold Heap.morecore at *
  dsimp only at *
  split at hmore
  · exact hmore
  · obtain ⟨h', hfree, hr⟩ := Option.bind_eq_some_iff.mp hmore
    exact Option.bind_eq_some_iff.mpr ⟨h', free_mono hle hfree, hr⟩

theorem scan_mono {nunits prevp p : Nat} {answers : List (Option Nat)}
    (hscan : Heap.scan nunits rounds h prevp p answers = some r) :
    Heap.scan nunits rounds' h prevp p answers = some r := by
  induction rounds generalizing h prevp p answers rounds' with
  | zero => cases hscan
  | succ rounds ih =>
    obtain ⟨rounds', rfl⟩ := Nat.exists_eq_succ_of_ne_zero (show rounds' ≠ 0 by omega)
    unfold Heap.scan at hscan ⊢
    split
    · next hfit => rwa [if_pos hfit] at hscan
    · next hfit =>
        rw [if_neg hfit] at hscan
        split
        · next hlast =>
            rw [if_pos hlast] at hscan
            obtain ⟨⟨q, h'⟩, hmore, hrest⟩ := Option.bind_eq_some_iff.mp hscan
            refine Option.bind_eq_some_iff.mpr ⟨(q, h'), morecore_mono (by omega) hmore, ?_⟩
            dsimp only at hrest ⊢
            split
            · next hnull => rwa [if_pos hnull] at hrest
            · next hnull =>
                rw [if_neg hnull] at hrest
                exact ih (by omega) hrest
        · next hlast =>
            rw [if_neg hlast] at hscan
            exact ih (by omega) hscan

theorem malloc_mono {base nbytes : Nat} {answers : List (Option Nat)}
    (hmalloc : h.malloc base rounds nbytes answers = some r) :
    h.malloc base rounds' nbytes answers = some r := scan_mono hle hmalloc

end

end Rounds

/-! ### Taking a block -/

/-- What `malloc` does to the list when it has found a block: it gives out the
block `b`. -/
structure Taken (base : Nat) (h' h : Heap) (b : Block) (l' l : List Block) : Prop where
  list : FreeList base h' l'
  size : h'.size b.addr = b.size
  covers : ∀ a, Covers l a ↔ Covers l' a ∨ b.Has a
  disjoint : ∀ a, b.Has a → ¬ Covers l' a
  sizes : ∀ a, a ≠ b.addr → (∀ c ∈ nodes base l, c.addr ≠ a) → h'.size a = h.size a
  brk : h'.brk = h.brk
  regions : h'.regions = h.regions

section Take

variable {base nunits : Nat} {h : Heap} {l : List Block}

theorem FreeList.addr_lt (hl : FreeList base h l) :
    (nodes base l).Pairwise (fun x y => x.addr < y.addr) :=
  hl.order.imp fun {x y} hxy => by
    unfold Block.Before Block.stop at hxy
    omega

theorem FreeList.eq_of_addr (hl : FreeList base h l) {x y : Block} (hx : x ∈ nodes base l)
    (hy : y ∈ nodes base l) (heq : x.addr = y.addr) : x = y := by
  have hnodup : ((nodes base l).map Block.addr).Nodup :=
    List.pairwise_map.mpr (hl.addr_lt.imp fun hlt => Nat.ne_of_lt hlt)
  exact List.inj_on_of_nodup_map hnodup hx hy heq

/-- The node before a block. -/
theorem FreeList.split_of_ptr (hl : FreeList base h l) {y x : Block} (hx : x ∈ l)
    (hy : y ∈ nodes base l) (hptr : h.ptr y.addr = x.addr) :
    ∃ l₁ l₂, nodes base l = l₁ ++ y :: x :: l₂ := by
  obtain ⟨l₁, l₂, heq⟩ := List.append_of_mem hy
  have hnext := hl.ptr_eq heq
  cases l₂ with
  | nil =>
    have hbase : h.ptr y.addr = base := hnext
    have := hl.above x hx
    unfold HEADER at this
    omega
  | cons z l₂ =>
    have hz : h.ptr y.addr = z.addr := hnext
    obtain rfl := hl.eq_of_addr (show z ∈ nodes base l by simp [heq])
      (List.mem_cons_of_mem _ hx) (by omega)
    exact ⟨l₁, l₂, heq⟩

/-- A block of the list and its neighbours. -/
structure Within (base : Nat) (h : Heap) (l l₁ : List Block) (y x : Block) (l₂ : List Block) :
    Prop where
  list : FreeList base h l
  nodes_eq : nodes base l = l₁ ++ y :: x :: l₂

namespace Within

variable {l₁ l₂ : List Block} {x y : Block}

variable {z : Block}

section

variable (hw : Within base h l l₁ y x l₂)
include hw

theorem mem (hz : z ∈ l₁ ++ y :: x :: l₂) :
    z ∈ nodes base l := hw.nodes_eq ▸ hz

theorem order : (l₁ ++ y :: x :: l₂).Pairwise Block.Before :=
  hw.nodes_eq ▸ hw.list.order

theorem ne (hz : z ∈ l₁ ++ y :: l₂) : z.addr ≠ x.addr := by
  have hlt : (l₁ ++ y :: x :: l₂).Pairwise (fun x y => x.addr < y.addr) :=
    hw.nodes_eq ▸ hw.list.addr_lt
  simp only [List.pairwise_append, List.pairwise_cons, List.mem_cons] at hlt
  rcases List.mem_append.mp hz with hz | hz
  · have := hlt.2.2 z hz x (by simp)
    omega
  · rcases List.mem_cons.mp hz with rfl | hz
    · have := hlt.2.1.1 x (by simp)
      omega
    · have := hlt.2.1.2.1 z hz
      omega

theorem apart (hz : z ∈ l₁ ++ y :: l₂) : z.stop < x.addr ∨ x.stop < z.addr := by
  have horder := hw.order
  simp only [List.pairwise_append, List.pairwise_cons, List.mem_cons] at horder
  rcases List.mem_append.mp hz with hz | hz
  · exact .inl (horder.2.2 z hz x (by simp))
  · rcases List.mem_cons.mp hz with rfl | hz
    · exact .inl (horder.2.1.1 x (by simp))
    · exact .inr (horder.2.1.2.1 z hz)

end

theorem sublist (_ : Within base h l l₁ y x l₂) : (l₁ ++ y :: l₂).Sublist (l₁ ++ y :: x :: l₂) :=
  (List.Sublist.refl l₁).append ((List.sublist_cons_self x l₂).cons_cons y)

section

variable (hw : Within base h l l₁ y x l₂)
include hw

theorem mem_of_ne (hz : z ∈ l₁ ++ y :: l₂) :
    z ∈ nodes base l := hw.mem (hw.sublist.subset hz)

theorem rest (hz : z ∈ l₁ ++ y :: x :: l₂) (hne : z ≠ ⟨base, 0⟩) :
    base + HEADER ≤ z.addr ∧ 0 < z.size ∧ z.stop < 2 ^ 32 := by
  have hmem := (List.mem_cons.mp (hw.mem hz)).resolve_left hne
  exact ⟨hw.list.above z hmem, hw.list.pos z hmem, hw.list.bound z hmem⟩

theorem x_ne : x ≠ ⟨base, 0⟩ := by
  have hle := hw.list.le_addr (hw.mem (show y ∈ l₁ ++ y :: x :: l₂ by simp))
  have hlt := (List.pairwise_append.mp hw.order).2.1
  have hyx : y.stop < x.addr := (List.pairwise_cons.mp hlt).1 x List.mem_cons_self
  rintro rfl
  unfold Block.stop at hyx
  dsimp only at hyx
  omega

theorem head {m : List Block} : (l₁ ++ y :: m).head? = some ⟨base, 0⟩ := by
  have hnodes := congrArg List.head? hw.nodes_eq
  cases l₁ <;> simpa using hnodes.symm

theorem segs :
    Seg h.ptr base (l₁.map Block.addr) y.addr ∧ h.ptr y.addr = x.addr ∧
    Seg h.ptr (h.ptr x.addr) (l₂.map Block.addr) base := by
  have hring := hw.list.ring
  rw [hw.nodes_eq, List.map_append, List.map_cons, List.map_cons] at hring
  obtain ⟨hl₁, hx, hl₂⟩ := hring.split
  exact ⟨hl₁, hx, hl₂⟩

theorem y_ne (hz : z ∈ l₁ ++ l₂) : z.addr ≠ y.addr := by
  have hlt : (l₁ ++ y :: x :: l₂).Pairwise (fun x y => x.addr < y.addr) :=
    hw.nodes_eq ▸ hw.list.addr_lt
  simp only [List.pairwise_append, List.pairwise_cons, List.mem_cons] at hlt
  rcases List.mem_append.mp hz with hz | hz
  · have := hlt.2.2 z hz y (by simp)
    omega
  · have := hlt.2.1.1 z (by simp [hz])
    omega

theorem covers (a : Nat) : Covers l a ↔ Covers (l₁ ++ y :: l₂) a ∨ x.Has a := by
  rw [← FreeList.covers_nodes base l, hw.nodes_eq]
  simp only [covers_append, covers_cons]
  grind

/-- The list without `x`. -/
theorem unlink :
    ∃ l', Taken base { h.setPtr y.addr (h.ptr x.addr) with freep := y.addr } h x l' l := by
  obtain ⟨hseg₁, hyx, hseg₂⟩ := hw.segs
  have hptr (a : Nat) (ha : a ≠ y.addr) : (h.setPtr y.addr (h.ptr x.addr)).ptr a = h.ptr a :=
    h.ptr_setPtr_of_ne _ ha
  have hframe {m : List Block} {a e : Nat} (hm : ∀ z ∈ m, z ∈ l₁ ++ l₂)
      (hseg : Seg h.ptr a (m.map Block.addr) e) :
      Seg (h.setPtr y.addr (h.ptr x.addr)).ptr a (m.map Block.addr) e := by
    refine hseg.congr fun b hb => hptr b ?_
    obtain ⟨z, hz, rfl⟩ := List.mem_map.mp hb
    exact hw.y_ne (hm z hz)
  obtain ⟨l', heq, hfree⟩ : ∃ l', l₁ ++ y :: l₂ = nodes base l' ∧
      FreeList base { h.setPtr y.addr (h.ptr x.addr) with freep := y.addr } l' := by
    refine FreeList.of_nodes hw.head hw.list.base_pos ?_ ?_ (hw.order.sublist hw.sublist)
      (fun z hz hne => hw.rest (hw.sublist.subset hz) hne) ⟨y, by simp, rfl⟩
    · rw [List.map_append, List.map_cons]
      refine (hframe (by simp +contextual) hseg₁).join ?_
      rw [h.ptr_setPtr_self]
      exact hframe (by simp +contextual) hseg₂
    · intro z hz
      exact (h.size_setPtr _ _ _).trans (hw.list.size z (hw.mem_of_ne hz))
  have hcov (a : Nat) : Covers l' a ↔ Covers (l₁ ++ y :: l₂) a := by
    rw [heq, FreeList.covers_nodes]
  refine ⟨l', hfree, ?_, fun a => ?_, ?_, fun a _ _ => h.size_setPtr _ _ _, rfl, rfl⟩
  · exact (h.size_setPtr _ _ _).trans (hw.list.size x (hw.mem (by simp)))
  · rw [hcov, hw.covers]
  · rintro a hxa hcovers
    obtain ⟨z, hz, hza⟩ := (hcov a).mp hcovers
    have hapart := hw.apart hz
    unfold Block.Has at hxa hza
    omega

/-- The list with the first units of `x` only. -/
theorem shrink (hlt : nunits < x.size) (hpos : 0 < nunits) :
    ∃ l', Taken base { (h.setSize x.addr (x.size - nunits)).setSize
        (x.addr + HEADER * (x.size - nunits)) nunits with freep := y.addr } h
      ⟨x.addr + HEADER * (x.size - nunits), nunits⟩ l' l := by
  obtain ⟨t, ht⟩ : ∃ t, t = x.addr + HEADER * (x.size - nunits) := ⟨_, rfl⟩
  obtain ⟨x', hx'⟩ : ∃ x' : Block, x' = ⟨x.addr, x.size - nunits⟩ := ⟨_, rfl⟩
  have haddr : x'.addr = x.addr := by rw [hx']
  have hstop : x'.stop = t := by rw [hx', ht]; rfl
  have htx : x.addr < t ∧ t + HEADER * nunits = x.stop := by
    unfold Block.stop HEADER at *
    omega
  rw [← ht]
  have hsize (a : Nat) (ha : a ≠ x.addr) (hat : a ≠ t) :
      ((h.setSize x.addr (x.size - nunits)).setSize t nunits).size a = h.size a := by
    rw [Heap.size_setSize_of_ne _ _ hat, Heap.size_setSize_of_ne _ _ ha]
  have hptr (a : Nat) :
      ((h.setSize x.addr (x.size - nunits)).setSize t nunits).ptr a = h.ptr a := by
    rw [Heap.ptr_setSize, Heap.ptr_setSize]
  have hne_t {z : Block} (hz : z ∈ l₁ ++ y :: l₂) : z.addr ≠ t := by
    have hapart := hw.apart hz
    unfold Block.stop at hapart htx
    unfold HEADER at *
    omega
  obtain ⟨hyx, hxl₂⟩ : y.stop < x.addr ∧ ∀ z ∈ l₂, x.stop < z.addr := by
    have horder := (List.pairwise_append.mp hw.order).2.1
    exact ⟨(List.pairwise_cons.mp horder).1 x List.mem_cons_self,
      (List.pairwise_cons.mp (List.pairwise_cons.mp horder).2).1⟩
  obtain ⟨l', heq, hfree⟩ : ∃ l', l₁ ++ y :: x' :: l₂ = nodes base l' ∧
      FreeList base { (h.setSize x.addr (x.size - nunits)).setSize t nunits with
        freep := y.addr } l' := by
    refine FreeList.of_nodes hw.head hw.list.base_pos ?_ ?_ ?_ ?_ ⟨y, by simp, rfl⟩
    · have hring := hw.list.ring
      rw [hw.nodes_eq] at hring
      simp only [List.map_append, List.map_cons, haddr] at hring ⊢
      exact hring.congr fun a _ => hptr a
    · intro z hz
      change ((h.setSize x.addr (x.size - nunits)).setSize t nunits).size z.addr = z.size
      by_cases hzx : z = x'
      · rw [hzx, haddr, Heap.size_setSize_of_ne _ _ (by omega), Heap.size_setSize_self, hx']
      · have hz : z ∈ l₁ ++ y :: l₂ := by
          simp only [List.mem_append, List.mem_cons] at hz ⊢
          tauto
        rw [hsize _ (hw.ne hz) (hne_t hz)]
        exact hw.list.size z (hw.mem_of_ne hz)
    · have horder := hw.order
      simp only [List.pairwise_append, List.pairwise_cons, List.mem_cons, forall_eq_or_imp,
        Block.Before] at horder ⊢
      rw [haddr, hstop]
      refine ⟨horder.1, ⟨⟨horder.2.1.1.1, horder.2.1.1.2⟩, fun z hz => ?_, horder.2.1.2.2⟩,
        horder.2.2⟩
      have := hxl₂ z hz
      omega
    · intro z hz hne
      by_cases hzx : z = x'
      · obtain ⟨habove, -, hbound⟩ := hw.rest (show x ∈ l₁ ++ y :: x :: l₂ by simp) hw.x_ne
        subst hzx
        refine ⟨by omega, ?_, by omega⟩
        rw [hx']
        exact Nat.sub_pos_of_lt hlt
      · refine hw.rest ?_ hne
        simp only [List.mem_append, List.mem_cons] at hz ⊢
        tauto
  have hcov (a : Nat) : Covers l' a ↔ Covers (l₁ ++ y :: l₂) a ∨ x'.Has a := by
    rw [← FreeList.covers_nodes base l', ← heq]
    simp only [covers_append, covers_cons]
    grind
  refine ⟨l', hfree, Heap.size_setSize_self _ _ _, fun a => ?_, ?_, fun a hat ha => ?_, rfl, rfl⟩
  · rw [hcov, hw.covers]
    unfold Block.Has at *
    rw [haddr, hstop]
    simp only [Block.stop] at *
    rw [or_assoc]
    refine or_congr_right ?_
    omega
  · rintro a hta hcovers
    have hhas : t ≤ a ∧ a < x.stop := by
      unfold Block.Has Block.stop at hta
      dsimp only at hta
      omega
    rcases (hcov a).mp hcovers with ⟨z, hz, hza⟩ | hxa
    · have hapart := hw.apart hz
      unfold Block.Has at hza
      omega
    · unfold Block.Has at hxa
      omega
  · exact hsize a (ha x (hw.mem (by simp))).symm hat

end

end Within

/-- `malloc` has found the block `x` after the node `y`. -/
theorem FreeList.take (hl : FreeList base h l) {y x : Block} (hx : x ∈ l)
    (hy : y ∈ nodes base l) (hptr : h.ptr y.addr = x.addr) (hfit : nunits ≤ x.size)
    (hpos : 0 < nunits) :
    ∃ t h' l', h.take nunits y.addr x.addr = (t + HEADER, h') ∧ Taken base h' h ⟨t, nunits⟩ l' l ∧
      base + HEADER ≤ t ∧ t + HEADER * nunits < 2 ^ 32 := by
  obtain ⟨l₁, l₂, heq⟩ := hl.split_of_ptr hx hy hptr
  have hw : Within base h l l₁ y x l₂ := ⟨hl, heq⟩
  have hsize := hl.size x (List.mem_cons_of_mem _ hx)
  have habove := hl.above x hx
  have hbound := hl.bound x hx
  unfold Heap.take
  rw [hsize]
  split
  · next hexact =>
      obtain ⟨l', htaken⟩ := hw.unlink
      subst hexact
      refine ⟨x.addr, _, l', ?_, htaken, habove, hbound⟩
      rw [show advance x.addr 1 = x.addr + HEADER from Nat.mod_eq_of_lt (by
        unfold Block.stop HEADER at *; omega)]
  · next hmore =>
      obtain ⟨l', htaken⟩ := hw.shrink (lt_of_le_of_ne hfit (Ne.symm hmore)) hpos
      have hstart : advance x.addr (x.size - nunits) = x.addr + HEADER * (x.size - nunits) :=
        Nat.mod_eq_of_lt (by unfold Block.stop HEADER at *; omega)
      refine ⟨x.addr + HEADER * (x.size - nunits), _, l', ?_, htaken, by omega, ?_⟩
      · dsimp only
        rw [Heap.size_setSize_self, hstart]
        rw [show advance (x.addr + HEADER * (x.size - nunits)) 1 =
          x.addr + HEADER * (x.size - nunits) + HEADER from Nat.mod_eq_of_lt (by
            unfold Block.stop HEADER at *; omega)]
      · unfold Block.stop HEADER at *
        omega

end Take

/-! ### The scan -/

section Scan

variable {base nunits : Nat} {h : Heap} {l : List Block} {answers : List (Option Nat)}

/-- What the loop does when it has been around the ring. -/
def Heap.grow (h : Heap) (nunits rounds : Nat) (answers : List (Option Nat)) :
    Option (Nat × Heap) := do
  let (p, h) ← h.morecore rounds nunits (answers.headD none)
  if p = 0 then return (0, h)
  else Heap.scan nunits rounds h p (h.ptr p) answers.tail

variable {rounds : Nat}

/-- The loop is at the block `x`, which is large enough. -/
theorem FreeList.scan_fits (hl : FreeList base h l) {x : Block} {q p : Nat} (hx : x ∈ nodes base l)
    (hxp : x.addr = p) (hfit : nunits ≤ h.size p) :
    Heap.scan nunits (rounds + 1) h q p answers = some (h.take nunits q x.addr) ∧
    nunits ≤ x.size := by
  unfold Heap.scan
  rw [if_pos hfit, hxp, ← hl.size x hx, hxp]
  exact ⟨rfl, hfit⟩

/-- The loop finds a block on its way to `freep`, or asks for more. -/
theorem FreeList.scan (hl : FreeList base h l) (nunits : Nat) (answers : List (Option Nat))
    {m : List Nat} {y : Block} {p : Nat} (hy : y ∈ nodes base l) (hptr : h.ptr y.addr = p)
    (hseg : Seg h.ptr p m h.freep) (hm : ∀ a ∈ m, ∃ x ∈ nodes base l, x.addr = a)
    (hfreep : h.freep ∉ m) (hrounds : m.length < rounds) :
    (∃ z ∈ nodes base l, ∃ x ∈ nodes base l, h.ptr z.addr = x.addr ∧ nunits ≤ x.size ∧
      Heap.scan nunits rounds h y.addr p answers = some (h.take nunits z.addr x.addr)) ∨
    ((∀ a ∈ m, h.size a < nunits) ∧ h.size h.freep < nunits ∧
      ∃ r, rounds = r + m.length + 1 ∧
        Heap.scan nunits rounds h y.addr p answers = h.grow nunits r answers) := by
  induction m generalizing y p rounds with
  | nil =>
    obtain ⟨rounds, rfl⟩ := Nat.exists_eq_succ_of_ne_zero (Nat.ne_of_gt hrounds)
    obtain rfl : p = h.freep := hseg
    by_cases hfit : nunits ≤ h.size h.freep
    · obtain ⟨x, hx, hxp⟩ := hl.freep
      obtain ⟨hscan, hsize⟩ := hl.scan_fits hx hxp.symm hfit
      exact .inl ⟨y, hy, x, hx, by rw [hptr, hxp], hsize, hscan⟩
    · refine .inr ⟨nofun, by omega, rounds, rfl, ?_⟩
      conv_lhs => unfold Heap.scan
      rw [if_neg hfit, if_pos rfl]
      rfl
  | cons a m ih =>
    obtain ⟨rounds, rfl⟩ := Nat.exists_eq_succ_of_ne_zero (show rounds ≠ 0 by omega)
    obtain ⟨rfl, hseg⟩ := hseg
    obtain ⟨x, hx, hxp⟩ := hm p List.mem_cons_self
    by_cases hfit : nunits ≤ h.size p
    · obtain ⟨hscan, hsize⟩ := hl.scan_fits hx hxp hfit
      exact .inl ⟨y, hy, x, hx, by rw [hptr, hxp], hsize, hscan⟩
    · have hne : p ≠ h.freep := fun heq => hfreep (by simp [heq])
      have hnext : Heap.scan nunits (rounds + 1) h y.addr p answers =
          Heap.scan nunits rounds h x.addr (h.ptr p) answers := by
        conv_lhs => unfold Heap.scan
        rw [if_neg hfit, if_neg hne, hxp]
      rw [hnext]
      rcases ih hx (by rw [hxp]) hseg (fun b hb => hm b (List.mem_cons_of_mem p hb))
          (fun hmem => hfreep (List.mem_cons_of_mem p hmem)) (by simpa using hrounds)
        with hfound | ⟨hsmall, hlast, r, hr, hgrow⟩
      · exact .inl hfound
      · refine .inr ⟨fun b hb => ?_, hlast, r, by simp; omega, hgrow⟩
        rcases List.mem_cons.mp hb with rfl | hb
        · omega
        · exact hsmall b hb

/-- The ring from `freep` on. -/
theorem FreeList.ring_from_freep (hl : FreeList base h l) :
    ∃ m, Seg h.ptr (h.ptr h.freep) m h.freep ∧ h.freep ∉ m ∧ m.length = l.length ∧
      (∀ a ∈ m, ∃ x ∈ nodes base l, x.addr = a) ∧
      ∀ x ∈ nodes base l, x.addr ∈ m ∨ x.addr = h.freep := by
  obtain ⟨y, hy, hyp⟩ := hl.freep
  obtain ⟨before, after, hsplit⟩ := List.append_of_mem hy
  have hring := hl.ring
  rw [hsplit, List.map_append, List.map_cons, ← hyp] at hring
  have hmem {a : Nat} : a ∈ after.map Block.addr ++ before.map Block.addr ↔
      ∃ x ∈ after ++ before, x.addr = a := by
    rw [← List.map_append, List.mem_map]
  refine ⟨after.map Block.addr ++ before.map Block.addr, hring.rotate.2, ?_, ?_, ?_, ?_⟩
  · rw [hmem, hyp]
    rintro ⟨x, hx, hxy⟩
    have hlt := hl.addr_lt
    rw [hsplit, List.pairwise_append, List.pairwise_cons] at hlt
    rcases List.mem_append.mp hx with hx | hx
    · have := hlt.2.1.1 x hx
      omega
    · have := hlt.2.2 x hx y List.mem_cons_self
      omega
  · have := congrArg List.length hsplit
    simp only [List.length_cons, List.length_append, List.length_map] at this ⊢
    omega
  · intro a ha
    obtain ⟨x, hx, hxa⟩ := hmem.mp ha
    refine ⟨x, ?_, hxa⟩
    rw [hsplit]
    simp only [List.mem_append, List.mem_cons] at hx ⊢
    tauto
  · intro x hx
    rw [hsplit] at hx
    simp only [List.mem_append, List.mem_cons] at hx
    rcases hx with hx | rfl | hx
    · exact .inl (hmem.mpr ⟨x, by simp [hx], rfl⟩)
    · exact .inr hyp.symm
    · exact .inl (hmem.mpr ⟨x, by simp [hx], rfl⟩)

/-- The loop from `freep` around the ring. -/
theorem FreeList.scan_ring (hl : FreeList base h l) (hpos : 0 < nunits)
    (hrounds : l.length < rounds) :
    (∃ z ∈ nodes base l, ∃ x ∈ l, h.ptr z.addr = x.addr ∧ nunits ≤ x.size ∧
      Heap.scan nunits rounds h h.freep (h.ptr h.freep) answers =
        some (h.take nunits z.addr x.addr)) ∨
    ((∀ x ∈ l, x.size < nunits) ∧ ∃ r, rounds = r + l.length + 1 ∧
      Heap.scan nunits rounds h h.freep (h.ptr h.freep) answers = h.grow nunits r answers) := by
  obtain ⟨m, hseg, hfreep, hlen, hnodes, hall⟩ := hl.ring_from_freep
  obtain ⟨y, hy, hyp⟩ := hl.freep
  have hscan := hl.scan nunits answers hy (by rw [← hyp]) hseg hnodes hfreep (hlen ▸ hrounds)
  rw [← hyp, hlen] at hscan
  rcases hscan with ⟨z, hz, x, hx, hzx, hfit, heq⟩ | ⟨hsmall, hlast, hgrow⟩
  · refine .inl ⟨z, hz, x, (List.mem_cons.mp hx).resolve_left ?_, hzx, hfit, heq⟩
    rintro rfl
    dsimp only at hfit
    omega
  · refine .inr ⟨fun x hx => ?_, hgrow⟩
    have hxn : x ∈ nodes base l := List.mem_cons_of_mem _ hx
    rw [← hl.size x hxn]
    rcases hall x hxn with hm | heq
    · exact hsmall _ hm
    · rw [heq]
      exact hlast

end Scan

end Xv6.Umalloc
