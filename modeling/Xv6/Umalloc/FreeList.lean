import Xv6.Lib.Segment
import Xv6.Umalloc.Basic

/-!
The free list: a ring through `base` and the free blocks, in the order of their
addresses, with room between any two of them. `free` puts a block where it
belongs in this order.
-/

namespace Xv6.Umalloc

open Prog

/-- `size` units at `addr`, with the header. -/
structure Block where
  addr : Nat
  size : Nat
deriving DecidableEq, Repr

namespace Block

def stop (b : Block) : Nat := b.addr + HEADER * b.size

def Has (b : Block) (a : Nat) : Prop := b.addr ≤ a ∧ a < b.stop

end Block

/-- The addresses inside some block. -/
def Covers (l : List Block) (a : Nat) : Prop := ∃ b ∈ l, b.Has a

variable {a : Nat}

theorem covers_append {l l' : List Block} : Covers (l ++ l') a ↔ Covers l a ∨ Covers l' a := by
  simp [Covers, or_and_right, exists_or]

theorem covers_cons {b : Block} {l : List Block} : Covers (b :: l) a ↔ b.Has a ∨ Covers l a := by
  simp [Covers]

/-- Two blocks that touch are as good as one. -/
theorem covers_merge {b c : Block} {l : List Block} (h : b.stop = c.addr) :
    Covers (⟨b.addr, b.size + c.size⟩ :: l) a ↔ Covers (b :: c :: l) a := by
  simp only [covers_cons, Block.Has, Block.stop, ← or_assoc] at *
  refine or_congr_left ?_
  rw [Nat.mul_add]
  omega

/-- `x` is before `y`, and does not touch it. -/
def Block.Before (x y : Block) : Prop := x.stop < y.addr

/-- All headers in the ring; that of `base` is a block without units. -/
abbrev nodes (base : Nat) (l : List Block) : List Block := ⟨base, 0⟩ :: l

/-- The header `base` and the free blocks `l` are the ring through `freep`. -/
structure FreeList (base : Nat) (h : Heap) (l : List Block) : Prop where
  base_pos : 0 < base
  ring : Seg h.ptr base ((nodes base l).map Block.addr) base
  size : ∀ b ∈ nodes base l, h.size b.addr = b.size
  order : (nodes base l).Pairwise Block.Before
  above : ∀ b ∈ l, base + HEADER ≤ b.addr
  pos : ∀ b ∈ l, 0 < b.size
  bound : ∀ b ∈ l, b.stop < 2 ^ 32
  freep : ∃ b ∈ nodes base l, h.freep = b.addr

section Search

variable {h : Heap}

/-- The loop of `free` finds a place on its way, if there is one. -/
theorem search_eq_some (bp : Nat) {a e : Nat} {l : List Nat} {rounds : Nat} (hseg : Seg h.ptr a l e)
    (hex : ∃ x ∈ l, h.Between bp x) (hrounds : l.length ≤ rounds) :
    ∃ x ∈ l, h.Between bp x ∧ h.search bp rounds a = some x := by
  induction l generalizing a rounds with
  | nil => simp at hex
  | cons x l ih =>
    obtain ⟨rfl, hseg⟩ := hseg
    obtain ⟨rounds, rfl⟩ := Nat.exists_eq_add_of_lt (show 0 < rounds by simp at hrounds; omega)
    simp only [Nat.zero_add] at hrounds ⊢
    unfold Heap.search
    by_cases hx : h.Between bp a
    · exact ⟨a, List.mem_cons_self, hx, if_pos hx⟩
    · have hrest : ∃ x ∈ l, h.Between bp x := by
        obtain ⟨y, hy, hbetween⟩ := hex
        rcases List.mem_cons.mp hy with rfl | hy
        · exact absurd hbetween hx
        · exact ⟨y, hy, hbetween⟩
      obtain ⟨y, hy, hbetween, hfound⟩ := ih hseg hrest (by simpa using hrounds)
      exact ⟨y, List.mem_cons_of_mem a hy, hbetween, by rw [if_neg hx, hfound]⟩

end Search

/-- Below `bp`, above `bp`. -/
theorem exists_place {bp : Nat} {x : Block} {l : List Block}
    (horder : (x :: l).Pairwise Block.Before)
    (hx : x.addr < bp) (hfresh : ∀ b ∈ l, b.addr ≠ bp) :
    ∃ l₁ y l₂, x :: l = l₁ ++ y :: l₂ ∧ y.addr < bp ∧ ∀ z ∈ l₂, bp < z.addr := by
  induction l generalizing x with
  | nil => exact ⟨[], x, [], rfl, hx, nofun⟩
  | cons y l ih =>
    have hrest := (List.pairwise_cons.mp horder).2
    by_cases hy : y.addr < bp
    · obtain ⟨l₁, z, l₂, heq, hplace⟩ :=
        ih hrest hy fun b hb => hfresh b (List.mem_cons_of_mem y hb)
      exact ⟨x :: l₁, z, l₂, by rw [heq]; rfl, hplace⟩
    · have hne := hfresh y List.mem_cons_self
      refine ⟨[], x, y :: l, rfl, hx, fun z hz => ?_⟩
      rcases List.mem_cons.mp hz with rfl | hz
      · omega
      · have : y.stop < z.addr := (List.pairwise_cons.mp hrest).1 z hz
        unfold Block.stop at this
        omega

/-! ### Joining blocks -/

section Join

variable {h : Heap} {base bp : Nat}

theorem advance_eq {b : Block} (hb : b.stop < 2 ^ 32) : advance b.addr b.size = b.stop :=
  Nat.mod_eq_of_lt hb

/-- The units of two blocks together are a `uint`. -/
theorem uint_add {b c : Block} (hb : b.stop ≤ c.addr) (hc : c.stop < 2 ^ 32) :
    uint (b.size + c.size) = b.size + c.size := by
  unfold Block.stop HEADER at *
  exact Nat.mod_eq_of_lt (by omega)

/-- What `joinNext` makes of the block at `bp` and the blocks above it. -/
structure Joined (h' h : Heap) (base : Nat) (b c : Block) (l' l : List Block) : Prop where
  addr : c.addr = b.addr
  size : h'.size b.addr = c.size
  seg : Seg h'.ptr (h'.ptr b.addr) (l'.map Block.addr) base
  ptr : ∀ a ≠ b.addr, h'.ptr a = h.ptr a
  sizes : ∀ a ≠ b.addr, h'.size a = h.size a
  order : (c :: l').Pairwise Block.Before
  covers : ∀ a, Covers (c :: l') a ↔ Covers (b :: l) a
  suffix : l' <:+ l
  bound : c.stop < 2 ^ 32
  fits : b.size ≤ c.size

theorem joinNext_joined {b : Block} {l : List Block} {q : Nat}
    (hseg : Seg h.ptr q (l.map Block.addr) base)
    (hsize : h.size b.addr = b.size) (hsizes : ∀ y ∈ l, h.size y.addr = y.size)
    (horder : l.Pairwise Block.Before) (hle : ∀ y ∈ l, b.stop ≤ y.addr)
    (hpos : 0 < b.size) (hposl : ∀ y ∈ l, 0 < y.size) (hbound : b.stop < 2 ^ 32)
    (hboundl : ∀ y ∈ l, y.stop < 2 ^ 32) (hbaseb : base < b.addr) :
    ∃ c l', Joined (h.joinNext b.addr q) h base b c l' l := by
  have hltb : ∀ y ∈ l, b.addr < y.addr := by
    intro y hy
    have := hle y hy
    unfold Block.stop HEADER at this
    omega
  cases l with
  | nil =>
    have hq : q = base := hseg
    have hno : ¬ advance b.addr b.size = q := by
      rw [hq, advance_eq hbound]
      unfold Block.stop
      omega
    refine ⟨b, [], ?_⟩
    unfold Heap.joinNext
    rw [hsize, if_neg hno]
    exact ⟨rfl, by simp [hsize], by simp [Seg, hq], fun a ha => h.ptr_setPtr_of_ne q ha,
      fun a _ => by simp, by simp, fun _ => Iff.rfl, List.suffix_refl _, hbound, Nat.le_refl _⟩
  | cons y l =>
    obtain ⟨rfl, hseg⟩ := hseg
    have hy := hle y List.mem_cons_self
    have hyb := hltb y List.mem_cons_self
    have hboundy := hboundl y List.mem_cons_self
    have hposy := hposl y List.mem_cons_self
    have hne : y.addr ≠ b.addr := by omega
    obtain ⟨hyl, horderl⟩ := List.pairwise_cons.mp horder
    have hadv := advance_eq hbound
    have hframe {h' : Heap} (hptr : ∀ a ≠ b.addr, h'.ptr a = h.ptr a) :
        Seg h'.ptr (h.ptr y.addr) (l.map Block.addr) base := by
      refine hseg.congr fun a ha => hptr a ?_
      obtain ⟨z, hz, rfl⟩ := List.mem_map.mp ha
      have := hltb z (List.mem_cons_of_mem y hz)
      omega
    unfold Heap.joinNext
    rw [hsize]
    split
    · next heq =>
        have hstop := hadv.symm.trans heq
        have hptr : ∀ a ≠ b.addr, ((h.setSize b.addr (uint (b.size + h.size y.addr))).setPtr b.addr
            (h.ptr y.addr)).ptr a = h.ptr a := by
          intro a ha
          rw [Heap.ptr_setPtr_of_ne _ _ ha, Heap.ptr_setSize]
        refine ⟨⟨b.addr, b.size + y.size⟩, l, rfl, ?_, ?_, hptr, ?_, ?_, ?_,
          List.suffix_cons y l, ?_, ?_⟩
        · rw [Heap.size_setPtr, Heap.size_setSize_self, hsizes y List.mem_cons_self,
            uint_add hy hboundy]
        · rw [Heap.ptr_setPtr_self]
          exact hframe hptr
        · intro a ha
          rw [Heap.size_setPtr, Heap.size_setSize_of_ne _ _ ha]
        · refine List.pairwise_cons.mpr ⟨fun z hz => ?_, horderl⟩
          have := hyl z hz
          unfold Block.Before Block.stop at *
          dsimp only
          rw [Nat.mul_add]
          omega
        · exact fun a => covers_merge hstop
        · unfold Block.stop at *
          dsimp only
          rw [Nat.mul_add]
          omega
        · exact Nat.le_add_right _ _
    · next hno =>
        have hstop : b.stop ≠ y.addr := fun heq => hno (hadv.trans heq)
        have hptr : ∀ a ≠ b.addr, (h.setPtr b.addr y.addr).ptr a = h.ptr a :=
          fun a ha => h.ptr_setPtr_of_ne _ ha
        refine ⟨b, y :: l, rfl, by simp [hsize], ?_, hptr, fun a _ => by simp, ?_,
          fun _ => Iff.rfl, List.suffix_refl _, hbound, Nat.le_refl _⟩
        · rw [Heap.ptr_setPtr_self]
          refine ⟨rfl, ?_⟩
          rw [hptr _ hne]
          exact hframe hptr
        · refine List.pairwise_cons.mpr ⟨fun z hz => ?_, horder⟩
          rcases List.mem_cons.mp hz with rfl | hz'
          · exact lt_of_le_of_ne hy hstop
          · have := hyl z hz'
            unfold Block.Before Block.stop at *
            omega

end Join

namespace FreeList

variable {base : Nat} {h : Heap} {l : List Block} {bp : Nat}

/-- The pointer after a block. -/
theorem ptr_eq (hl : FreeList base h l) {l₁ l₂ : List Block} {x : Block}
    (heq : nodes base l = l₁ ++ x :: l₂) :
    h.ptr x.addr = (l₂.map Block.addr ++ [base]).head (by simp) := by
  have hring := hl.ring
  rw [heq, List.map_append, List.map_cons] at hring
  exact hring.next_eq

theorem le_addr (hl : FreeList base h l) {b : Block} (hb : b ∈ nodes base l) : base ≤ b.addr := by
  rcases List.mem_cons.mp hb with rfl | hb
  · exact Nat.le_refl _
  · have := hl.above b hb
    omega

/-- The loop stops at a block below `bp` that has no other between it and
`bp`. -/
theorem between_iff (hl : FreeList base h l) {l₁ l₂ : List Block} {x : Block}
    (heq : nodes base l = l₁ ++ x :: l₂) (hbp : base < bp) :
    h.Between bp x.addr ↔ x.addr < bp ∧ ∀ y ∈ l₂, bp < y.addr := by
  have hptr := hl.ptr_eq heq
  have horder := hl.order
  rw [heq, List.pairwise_append, List.pairwise_cons] at horder
  obtain ⟨-, ⟨hx, hl₂⟩, -⟩ := horder
  have hbase := hl.le_addr (show x ∈ nodes base l by simp [heq])
  unfold Heap.Between
  cases l₂ with
  | nil =>
    have hptr : h.ptr x.addr = base := hptr
    simp only [hptr, List.not_mem_nil, false_implies, implies_true, and_true]
    omega
  | cons y l₂ =>
    have hptr : h.ptr x.addr = y.addr := hptr
    have hxy : x.stop < y.addr := hx y List.mem_cons_self
    have hrest : ∀ z ∈ l₂, y.addr < z.addr := by
      intro z hz
      have : y.stop < z.addr := (List.pairwise_cons.mp hl₂).1 z hz
      unfold Block.stop at this
      omega
    unfold Block.stop at hxy
    rw [hptr]
    constructor
    · intro hbetween
      refine ⟨by omega, fun z hz => ?_⟩
      rcases List.mem_cons.mp hz with rfl | hz
      · omega
      · have := hrest z hz
        omega
    · rintro ⟨hlt, hall⟩
      exact .inl ⟨hlt, hall y List.mem_cons_self⟩

theorem search (hl : FreeList base h l) (hbp : base < bp) (hfresh : ∀ b ∈ l, b.addr ≠ bp)
    {rounds : Nat} (hrounds : l.length + 1 ≤ rounds) :
    ∃ l₁ x l₂, nodes base l = l₁ ++ x :: l₂ ∧ x.addr < bp ∧ (∀ y ∈ l₂, bp < y.addr) ∧
      h.search bp rounds h.freep = some x.addr := by
  obtain ⟨b, hb, hfreep⟩ := hl.freep
  -- the ring, entered at `freep`
  obtain ⟨before, after, hsplit⟩ := List.append_of_mem hb
  have hring := hl.ring
  rw [hsplit, List.map_append, List.map_cons] at hring
  have hrot := hring.rotate
  have hlen : (b.addr :: after.map Block.addr ++ before.map Block.addr).length ≤ rounds := by
    have := congrArg List.length hsplit
    simp only [List.length_cons, List.length_append, List.length_map] at this ⊢
    omega
  have hmem {a : Nat} : a ∈ b.addr :: after.map Block.addr ++ before.map Block.addr ↔
      ∃ x ∈ nodes base l, x.addr = a := by
    rw [hsplit]
    simp only [List.cons_append, List.mem_cons, List.mem_append, List.mem_map]
    grind
  obtain ⟨l₁, x, l₂, heq, hplace⟩ := exists_place hl.order hbp hfresh
  obtain ⟨a, ha, hbetween, hfound⟩ := search_eq_some bp hrot
    ⟨x.addr, hmem.mpr ⟨x, by simp [heq], rfl⟩, (hl.between_iff heq hbp).mpr hplace⟩ hlen
  obtain ⟨y, hy, rfl⟩ := hmem.mp ha
  obtain ⟨l₁, l₂, heq⟩ := List.append_of_mem hy
  obtain ⟨hlt, hgt⟩ := (hl.between_iff heq hbp).mp hbetween
  exact ⟨l₁, y, l₂, heq, hlt, hgt, by rw [hfreep, hfound]⟩

/-- A list of nodes that begins with `base`. -/
theorem of_nodes {h' : Heap} {nodes' : List Block} (hhead : nodes'.head? = some ⟨base, 0⟩)
    (hbase : 0 < base) (hring : Seg h'.ptr base (nodes'.map Block.addr) base)
    (hsize : ∀ b ∈ nodes', h'.size b.addr = b.size) (horder : nodes'.Pairwise Block.Before)
    (hrest : ∀ b ∈ nodes', b ≠ ⟨base, 0⟩ → base + HEADER ≤ b.addr ∧ 0 < b.size ∧ b.stop < 2 ^ 32)
    (hfreep : ∃ b ∈ nodes', h'.freep = b.addr) :
    ∃ l', nodes' = nodes base l' ∧ FreeList base h' l' := by
  cases nodes' with
  | nil => cases hhead
  | cons b l' =>
    obtain rfl : b = ⟨base, 0⟩ := by simpa using hhead
    have hne : ∀ c ∈ l', c ≠ ⟨base, 0⟩ := by
      rintro c hc rfl
      have : base + HEADER * 0 < base := (List.pairwise_cons.mp horder).1 _ hc
      omega
    have hl' c (hc : c ∈ l') := hrest c (List.mem_cons_of_mem _ hc) (hne c hc)
    exact ⟨l', rfl, hbase, hring, hsize, horder, fun c hc => (hl' c hc).1,
      fun c hc => (hl' c hc).2.1, fun c hc => (hl' c hc).2.2, hfreep⟩

/-- What `free` does to the list, when the place of the block is found. -/
structure Inserted (base : Nat) (h' h : Heap) (b : Block) (l' l : List Block) : Prop where
  free : FreeList base h' l'
  covers : ∀ a, Covers l' a ↔ Covers l a ∨ b.Has a
  sizes : ∀ a, a ≠ b.addr → (∀ c ∈ nodes base l, c.addr ≠ a) → h'.size a = h.size a
  fits : ∃ c ∈ l', b.size ≤ c.size
  length : l'.length ≤ l.length + 1

theorem covers_nodes (base : Nat) (l : List Block) {a : Nat} :
    Covers (nodes base l) a ↔ Covers l a := by
  rw [covers_cons]
  simp only [Block.Has, Block.stop]
  refine or_iff_right ?_
  omega

end FreeList

/-- The block `b` is not in the list and has its place between `x` and `l₂`. -/
structure Place (base : Nat) (h : Heap) (l l₁ : List Block) (x : Block) (l₂ : List Block)
    (b : Block) : Prop where
  list : FreeList base h l
  nodes_eq : nodes base l = l₁ ++ x :: l₂
  size : h.size b.addr = b.size
  lt : x.addr < b.addr
  le : x.stop ≤ b.addr
  ge : ∀ y ∈ l₂, b.stop ≤ y.addr
  pos : 0 < b.size
  bound : b.stop < 2 ^ 32
  above : base + HEADER ≤ b.addr

namespace Place

variable {base : Nat} {h : Heap} {l l₁ l₂ : List Block} {x b : Block}

theorem base_lt (hp : Place base h l l₁ x l₂ b) : base < b.addr := by
  have := hp.above
  unfold HEADER at this
  omega

variable {y : Block}

section

variable (hp : Place base h l l₁ x l₂ b)
include hp

theorem mem (hy : y ∈ l₁ ++ x :: l₂) :
    y ∈ nodes base l := hp.nodes_eq ▸ hy

theorem gt (hy : y ∈ l₂) : b.addr < y.addr := by
  have hle := hp.ge y hy
  have hpos := hp.pos
  unfold Block.stop HEADER at hle
  omega

theorem mem_above (hy : y ∈ l₂) : y ∈ l := by
  refine (List.mem_cons.mp (hp.mem (by simp [hy]))).resolve_left ?_
  rintro rfl
  have hgt : b.addr < base := hp.gt hy
  have hlt := hp.base_lt
  omega

theorem order : (l₁ ++ x :: l₂).Pairwise Block.Before :=
  hp.nodes_eq ▸ hp.list.order

theorem before (hy : y ∈ l₁) : y.stop < x.addr :=
  (List.pairwise_append.mp hp.order).2.2 y hy x List.mem_cons_self

theorem lt_of_mem (hy : y ∈ l₁) : y.addr < x.addr := by
  have := hp.before hy
  unfold Block.stop at this
  omega

theorem segs :
    Seg h.ptr base (l₁.map Block.addr) x.addr ∧
    Seg h.ptr (h.ptr x.addr) (l₂.map Block.addr) base := by
  have hring := hp.list.ring
  rw [hp.nodes_eq, List.map_append, List.map_cons] at hring
  exact hring.split

theorem joinNext : ∃ c l₂', Joined (h.joinNext b.addr (h.ptr x.addr)) h base b c l₂' l₂ :=
  joinNext_joined hp.segs.2 hp.size
    (fun y hy => hp.list.size y (List.mem_cons_of_mem _ (hp.mem_above hy)))
    (List.pairwise_cons.mp (List.pairwise_append.mp hp.order).2.1).2 hp.ge hp.pos
    (fun y hy => hp.list.pos y (hp.mem_above hy)) hp.bound
    (fun y hy => hp.list.bound y (hp.mem_above hy)) hp.base_lt

theorem rest (hy : y ∈ l₁ ++ x :: l₂) (hne : y ≠ ⟨base, 0⟩) :
    base + HEADER ≤ y.addr ∧ 0 < y.size ∧ y.stop < 2 ^ 32 := by
  have hmem := (List.mem_cons.mp (hp.mem hy)).resolve_left hne
  exact ⟨hp.list.above y hmem, hp.list.pos y hmem, hp.list.bound y hmem⟩

theorem covers {h' : Heap} {c : Block} {l₂' : List Block} (hj : Joined h' h base b c l₂' l₂)
    (a : Nat) : Covers (l₁ ++ x :: c :: l₂') a ↔ Covers l a ∨ b.Has a := by
  rw [covers_append, covers_cons, hj.covers a, covers_cons,
    ← FreeList.covers_nodes base l, hp.nodes_eq, covers_append, covers_cons]
  grind

/-- The first node stays the same. -/
theorem head {l' : List Block} (hy : l₁ = [] → y = x) : (l₁ ++ y :: l').head? = some ⟨base, 0⟩ := by
  have hnodes := hp.nodes_eq
  cases l₁ with
  | nil =>
    rw [hy rfl]
    simpa using (congrArg List.head? hnodes).symm
  | cons z l₁ => simpa using (congrArg List.head? hnodes).symm

end

section Prev

variable {h₁ h₂ : Heap} {c : Block} {l₂' : List Block}

variable {y : Block}

/-- The nodes below and above are not touched. -/
theorem ne_below (hp : Place base h l l₁ x l₂ b) (hy : y ∈ l₁) :
    y.addr ≠ x.addr ∧ y.addr ≠ b.addr := by
  have := hp.lt_of_mem hy
  have := hp.lt
  omega

section

variable (hp : Place base h l l₁ x l₂ b) (hj : Joined h₁ h base b c l₂' l₂)
include hp hj

theorem ne_above (hy : y ∈ l₂') : y.addr ≠ x.addr ∧ y.addr ≠ b.addr := by
  have := hp.gt (hj.suffix.subset hy)
  have := hp.lt
  omega

theorem size_below (hsize : ∀ a ≠ x.addr, h₂.size a = h₁.size a) (hy : y ∈ l₁) :
    h₂.size y.addr = y.size := by
  obtain ⟨hyx, hyb⟩ := hp.ne_below hy
  rw [hsize _ hyx, hj.sizes _ hyb]
  exact hp.list.size y (hp.mem (by simp [hy]))

theorem size_above (hsize : ∀ a ≠ x.addr, h₂.size a = h₁.size a) (hy : y ∈ l₂') :
    h₂.size y.addr = y.size := by
  obtain ⟨hyx, hyb⟩ := hp.ne_above hj hy
  rw [hsize _ hyx, hj.sizes _ hyb]
  exact hp.list.size y (hp.mem (by simp [hj.suffix.subset hy]))

theorem seg_below (hptr : ∀ a ≠ x.addr, h₂.ptr a = h₁.ptr a) :
    Seg h₂.ptr base (l₁.map Block.addr) x.addr := by
  refine hp.segs.1.congr fun a ha => ?_
  obtain ⟨y, hy, rfl⟩ := List.mem_map.mp ha
  obtain ⟨hyx, hyb⟩ := hp.ne_below hy
  rw [hptr _ hyx, hj.ptr _ hyb]

theorem seg_above (hptr : ∀ a ≠ x.addr, h₂.ptr a = h₁.ptr a) :
    Seg h₂.ptr (h₁.ptr b.addr) (l₂'.map Block.addr) base := by
  refine hj.seg.congr fun a ha => ?_
  obtain ⟨y, hy, rfl⟩ := List.mem_map.mp ha
  exact hptr _ (hp.ne_above hj hy).1

theorem sizes_other (hsize : ∀ a ≠ x.addr, h₂.size a = h₁.size a) {a : Nat} (hab : a ≠ b.addr)
    (ha : ∀ c ∈ nodes base l, c.addr ≠ a) : h₂.size a = h.size a := by
  rw [hsize a (ha x (hp.mem (by simp))).symm, hj.sizes a hab]

end

theorem order_below (hp : Place base h l l₁ x l₂ b) : l₁.Pairwise Block.Before :=
  (List.pairwise_append.mp hp.order).1

section

variable (hp : Place base h l l₁ x l₂ b) (hj : Joined h₁ h base b c l₂' l₂)
include hp hj

theorem length_le : l₁.length + l₂'.length ≤ l.length := by
  have hlen := congrArg List.length hp.nodes_eq
  have hle := hj.suffix.length_le
  simp only [List.length_cons, List.length_append] at hlen
  omega

/-- The list after `joinPrev`: below `x` as it was, and then `y`, in the place of
`x`, and `m`. -/
theorem finish {m : List Block} (haddr : y.addr = x.addr) (hhead : l₁ = [] → y = x)
    (hptr : ∀ a ≠ x.addr, h₂.ptr a = h₁.ptr a) (hsize : ∀ a ≠ x.addr, h₂.size a = h₁.size a)
    (hfreep : h₂.freep = x.addr) (hseg : Seg h₂.ptr (h₂.ptr x.addr) (m.map Block.addr) base)
    (hsizes : ∀ z ∈ y :: m, h₂.size z.addr = z.size) (horder : (y :: m).Pairwise Block.Before)
    (hrest : ∀ z ∈ y :: m, z ≠ ⟨base, 0⟩ → base + HEADER ≤ z.addr ∧ 0 < z.size ∧ z.stop < 2 ^ 32)
    (hcovers : ∀ a, Covers (y :: m) a ↔ Covers (x :: c :: l₂') a)
    (hfits : ∃ z ∈ y :: m, b.size ≤ z.size) (hlen : m.length ≤ l₂'.length + 1) :
    ∃ l', FreeList.Inserted base h₂ h b l' l := by
  obtain ⟨l', heq, hfree⟩ : ∃ l', l₁ ++ y :: m = nodes base l' ∧ FreeList base h₂ l' := by
    refine FreeList.of_nodes (hp.head hhead) hp.list.base_pos ?_ ?_ ?_ ?_
      ⟨y, by simp, by rw [haddr, hfreep]⟩
    · rw [List.map_append, List.map_cons, haddr]
      exact (hp.seg_below hj hptr).join hseg
    · intro z hz
      rcases List.mem_append.mp hz with hz | hz
      · exact hp.size_below hj hsize hz
      · exact hsizes z hz
    · refine List.pairwise_append.mpr ⟨hp.order_below, horder, fun z hz z' hz' => ?_⟩
      have hzx := hp.before hz
      unfold Block.Before
      rcases List.mem_cons.mp hz' with rfl | hz'
      · rw [haddr]
        exact hzx
      · have : y.stop < z'.addr := (List.pairwise_cons.mp horder).1 z' hz'
        unfold Block.stop at this
        omega
    · intro z hz hne
      rcases List.mem_append.mp hz with hz | hz
      · exact hp.rest (by simp [hz]) hne
      · exact hrest z hz hne
  refine ⟨l', hfree, fun a => ?_, fun a hab ha => hp.sizes_other hj hsize hab ha, ?_, ?_⟩
  · rw [← FreeList.covers_nodes base l', ← heq, ← hp.covers hj, covers_append, covers_append,
      hcovers]
  · obtain ⟨z, hz, hfit⟩ := hfits
    have hmem : z ∈ nodes base l' := heq ▸ List.mem_append_right l₁ hz
    refine ⟨z, (List.mem_cons.mp hmem).resolve_left ?_, hfit⟩
    rintro rfl
    have := hp.pos
    dsimp only at hfit
    omega
  · have := congrArg List.length heq
    have := hp.length_le hj
    simp only [List.length_cons, List.length_append] at *
    omega

/-- The block `x` points to the new one. -/
theorem link (hapart : x.stop ≠ b.addr) :
    ∃ l', FreeList.Inserted base { h₁.setPtr x.addr b.addr with freep := x.addr } h b l' l := by
  have hlt := hp.lt
  have hle := hp.le
  have hpos := hp.pos
  have hfits := hj.fits
  refine hp.finish (y := x) (m := c :: l₂') hj rfl (fun _ => rfl)
    (fun a ha => h₁.ptr_setPtr_of_ne _ ha) (fun a _ => h₁.size_setPtr _ _ _) rfl ?_ ?_ ?_ ?_
    (fun _ => Iff.rfl) ⟨c, by simp, hfits⟩ (by simp)
  · refine ⟨(h₁.ptr_setPtr_self _ _).trans hj.addr.symm, ?_⟩
    rw [hj.addr]
    change Seg _ ((h₁.setPtr x.addr b.addr).ptr b.addr) _ _
    rw [h₁.ptr_setPtr_of_ne _ (by omega)]
    exact hp.seg_above hj fun a ha => h₁.ptr_setPtr_of_ne _ ha
  · intro z hz
    change (h₁.setPtr x.addr b.addr).size z.addr = z.size
    simp only [List.mem_cons] at hz
    rcases hz with rfl | rfl | hz
    · rw [h₁.size_setPtr, hj.sizes _ (by omega)]
      exact hp.list.size z (hp.mem (by simp))
    · rw [h₁.size_setPtr, hj.addr, hj.size]
    · exact hp.size_above hj (fun a _ => h₁.size_setPtr _ _ _) hz
  · refine List.pairwise_cons.mpr ⟨fun z hz => ?_, hj.order⟩
    unfold Block.Before
    rcases List.mem_cons.mp hz with rfl | hz
    · rw [hj.addr]
      omega
    · have := hp.gt (hj.suffix.subset hz)
      omega
  · intro z hz hne
    simp only [List.mem_cons] at hz
    rcases hz with rfl | rfl | hz
    · exact hp.rest (by simp) hne
    · rw [hj.addr]
      exact ⟨hp.above, by omega, hj.bound⟩
    · exact hp.rest (by simp [hj.suffix.subset hz]) hne

/-- The block `x` takes in the new one. -/
theorem merge (htouch : x.stop = b.addr) :
    ∃ l', FreeList.Inserted base { (h₁.setSize x.addr (uint (x.size + c.size))).setPtr x.addr
      (h₁.ptr b.addr) with freep := x.addr } h b l' l := by
  have hlt := hp.lt
  have hfits := hj.fits
  have hstop : x.stop = c.addr := htouch.trans hj.addr.symm
  have hsum : (⟨x.addr, x.size + c.size⟩ : Block).stop = c.stop := by
    unfold Block.stop at *
    dsimp only
    rw [Nat.mul_add]
    omega
  have hptr (a : Nat) (ha : a ≠ x.addr) :
      ((h₁.setSize x.addr (uint (x.size + c.size))).setPtr x.addr (h₁.ptr b.addr)).ptr a =
        h₁.ptr a := by
    rw [Heap.ptr_setPtr_of_ne _ _ ha, Heap.ptr_setSize]
  have hsize (a : Nat) (ha : a ≠ x.addr) :
      ((h₁.setSize x.addr (uint (x.size + c.size))).setPtr x.addr (h₁.ptr b.addr)).size a =
        h₁.size a := by
    rw [Heap.size_setPtr, Heap.size_setSize_of_ne _ _ ha]
  have hmem : x ≠ ⟨base, 0⟩ := by
    rintro rfl
    have := hp.base_lt
    simp only [Block.stop] at htouch
    omega
  refine hp.finish (y := ⟨x.addr, x.size + c.size⟩) (m := l₂') hj rfl ?_ hptr hsize rfl ?_ ?_ ?_ ?_
    (fun a => covers_merge hstop) ⟨_, List.mem_cons_self, by dsimp only; omega⟩ (by omega)
  · rintro rfl
    have := hp.nodes_eq
    simp only [List.nil_append, List.cons.injEq] at this
    exact absurd this.1.symm hmem
  · change Seg _ ((Heap.setPtr _ x.addr (h₁.ptr b.addr)).ptr x.addr) _ _
    rw [Heap.ptr_setPtr_self]
    exact hp.seg_above hj hptr
  · intro z hz
    rcases List.mem_cons.mp hz with rfl | hz
    · change (Heap.setPtr _ x.addr (h₁.ptr b.addr)).size x.addr = _
      rw [Heap.size_setPtr, Heap.size_setSize_self]
      exact uint_add (by omega) hj.bound
    · exact hp.size_above hj hsize hz
  · obtain ⟨hc, hl₂'⟩ := List.pairwise_cons.mp hj.order
    refine List.pairwise_cons.mpr ⟨fun z hz => ?_, hl₂'⟩
    unfold Block.Before
    rw [hsum]
    exact hc z hz
  · intro z hz hne
    rcases List.mem_cons.mp hz with rfl | hz
    · obtain ⟨habove, hpos, -⟩ := hp.rest (y := x) (by simp) hmem
      exact ⟨habove, by dsimp only; omega, by rw [hsum]; exact hj.bound⟩
    · exact hp.rest (by simp [hj.suffix.subset hz]) hne

end

theorem insert (hp : Place base h l l₁ x l₂ b) :
    ∃ l', FreeList.Inserted base (h.insert b.addr x.addr) h b l' l := by
  obtain ⟨c, l₂', hj⟩ := hp.joinNext
  have hsize : (h.joinNext b.addr (h.ptr x.addr)).size x.addr = x.size := by
    rw [hj.sizes _ (by have := hp.lt; omega)]
    exact hp.list.size x (hp.mem (by simp))
  have hbound : b.addr < 2 ^ 32 := by
    have hbound := hp.bound
    have hpos := hp.pos
    unfold Block.stop HEADER at hbound
    omega
  unfold Heap.insert Heap.joinPrev
  rw [hsize, hj.size, advance_eq (show x.stop < 2 ^ 32 by have := hp.le; omega)]
  split
  · next hx => exact hp.merge hj hx
  · next hx => exact hp.link hj hx

end Prev

end Place

/-- `free` of a block that no block of the list overlaps. -/
theorem FreeList.release {base : Nat} {h : Heap} {l : List Block} {b : Block}
    (hl : FreeList base h l) (hsize : h.size b.addr = b.size) (hpos : 0 < b.size)
    (hbound : b.stop < 2 ^ 32) (habove : base + HEADER ≤ b.addr)
    (hdisjoint : ∀ a, b.Has a → ¬ Covers l a) {rounds : Nat} (hrounds : l.length + 1 ≤ rounds) :
    ∃ h' l', h.free rounds (b.addr + HEADER) = some h' ∧ FreeList.Inserted base h' h b l' l := by
  have hbp : uint (b.addr + HEADER + (2 ^ 32 - HEADER)) = b.addr := by
    unfold uint Block.stop HEADER at *
    omega
  have hhas : b.Has b.addr := by
    unfold Block.Has Block.stop HEADER
    omega
  have hfresh : ∀ c ∈ l, c.addr ≠ b.addr := by
    rintro c hc heq
    refine hdisjoint b.addr hhas ⟨c, hc, heq.le, ?_⟩
    have := hl.pos c hc
    unfold Block.stop HEADER
    omega
  obtain ⟨l₁, x, l₂, heq, hlt, hgt, hfound⟩ :=
    hl.search (by unfold HEADER at habove; omega) hfresh hrounds
  have hp : Place base h l l₁ x l₂ b := by
    refine ⟨hl, heq, hsize, hlt, ?_, ?_, hpos, hbound, habove⟩
    · by_contra hover
      have hx : x ∈ nodes base l := by simp [heq]
      rcases List.mem_cons.mp hx with rfl | hx
      · simp only [Block.stop] at hover
        omega
      · exact hdisjoint b.addr hhas ⟨x, hx, hlt.le, by omega⟩
    · intro y hy
      by_contra hover
      have hyl : y ∈ l := by
        refine (List.mem_cons.mp (show y ∈ nodes base l by simp [heq, hy])).resolve_left ?_
        rintro rfl
        have hbase : b.addr < base := hgt _ hy
        omega
      have := hl.pos y hyl
      refine hdisjoint y.addr ⟨(hgt y hy).le, by omega⟩ ⟨y, hyl, Nat.le_refl _, ?_⟩
      unfold Block.stop HEADER
      omega
  obtain ⟨l', hinserted⟩ := hp.insert
  refine ⟨h.insert b.addr x.addr, l', ?_, hinserted⟩
  unfold Heap.free
  rw [hbp]
  dsimp only
  rw [hfound]
  rfl

end Xv6.Umalloc
