import Xv6.Umalloc.Malloc

/-!
The heap as a whole: the free blocks and the blocks of the program lie apart from
each other, and make up the memory from `sbrk`.
-/

namespace Xv6.Umalloc

open Prog Transition

/-- The block of an allocation, with its header. -/
def Alloc.block (h : Heap) (x : Alloc) : Block := ⟨x.ptr - HEADER, h.size (x.ptr - HEADER)⟩

/-- The blocks of two allocations have no address in common. -/
def Alloc.Apart (h : Heap) (x y : Alloc) : Prop := ∀ a, (x.block h).Has a → ¬ (y.block h).Has a

instance (h : Heap) : Std.Symm (Alloc.Apart h) := ⟨fun _ _ hxy a hy hx => hxy a hx hy⟩

/-- The memory from `sbrk`. -/
def Heap.Owns (h : Heap) (a : Nat) : Prop := ∃ r ∈ h.regions, r.1 ≤ a ∧ a < r.2

/-- The block of `x` is in order, and has room for what was asked for. -/
structure Alloc.Ok (base : Nat) (h : Heap) (x : Alloc) : Prop where
  ptr : HEADER ≤ x.ptr
  above : base + HEADER ≤ (x.block h).addr
  bound : (x.block h).stop < 2 ^ 32
  room : x.ptr + x.n ≤ (x.block h).stop

/-- The free blocks `l` and the allocated ones. -/
structure Good (base : Nat) (h : Heap) (live : List Alloc) (l : List Block) : Prop where
  list : FreeList base h l
  ok : ∀ x ∈ live, x.Ok base h
  apart : live.Pairwise (Alloc.Apart h)
  free : ∀ x ∈ live, ∀ a, (x.block h).Has a → ¬ Covers l a
  covers : ∀ a, (Covers l a ∨ ∃ x ∈ live, (x.block h).Has a) ↔ h.Owns a
  brk : base + HEADER ≤ h.brk
  regions : ∀ r ∈ h.regions, base + HEADER ≤ r.1 ∧ r.2 ≤ h.brk

theorem FreeList.congr {base : Nat} {h h' : Heap} {l : List Block} (hl : FreeList base h l)
    (hmem : ∀ b ∈ nodes base l, h'.mem b.addr = h.mem b.addr) (hfreep : h'.freep = h.freep) :
    FreeList base h' l where
  base_pos := hl.base_pos
  ring := by
    refine hl.ring.congr fun a ha => ?_
    obtain ⟨b, hb, rfl⟩ := List.mem_map.mp ha
    unfold Heap.ptr
    rw [hmem b hb]
  size := by
    intro b hb
    unfold Heap.size
    rw [hmem b hb]
    exact hl.size b hb
  order := hl.order
  above := hl.above
  pos := hl.pos
  bound := hl.bound
  freep := by
    rw [hfreep]
    exact hl.freep

namespace Alloc.Ok

variable {base : Nat} {h : Heap} {x : Alloc}

theorem ptr_eq (hx : x.Ok base h) : x.ptr = (x.block h).addr + HEADER := by
  have := hx.ptr
  unfold Alloc.block
  dsimp only
  omega

theorem has_addr (hx : x.Ok base h) : (x.block h).Has (x.block h).addr := by
  have hroom := hx.room
  rw [hx.ptr_eq] at hroom
  unfold Block.Has
  unfold HEADER at hroom
  omega

/-- A heap with the same header. -/
theorem congr {h' : Heap} (hx : x.Ok base h)
    (hsize : h'.size (x.ptr - HEADER) = h.size (x.ptr - HEADER)) :
    x.Ok base h' ∧ x.block h' = x.block h := by
  have hblock : x.block h' = x.block h := by
    unfold Alloc.block
    rw [hsize]
  refine ⟨⟨hx.ptr, ?_, ?_, ?_⟩, hblock⟩
  · rw [hblock]
    exact hx.above
  · rw [hblock]
    exact hx.bound
  · rw [hblock]
    exact hx.room

end Alloc.Ok

namespace Good

variable {base : Nat} {h h' : Heap} {live : List Alloc} {l l' : List Block}

section

variable (hg : Good base h live l)
include hg

/-- The header of an allocated block is not in the free list. -/
theorem not_node {x : Alloc} (hx : x ∈ live) {c : Block} (hc : c ∈ nodes base l) :
    c.addr ≠ x.ptr - HEADER := by
  intro heq
  have hok := hg.ok x hx
  have haddr : (x.block h).addr = c.addr := heq.symm
  rcases List.mem_cons.mp hc with rfl | hc
  · have := hok.above
    rw [haddr] at this
    unfold HEADER at this
    dsimp only at this
    omega
  · refine hg.free x hx c.addr (haddr ▸ hok.has_addr) ⟨c, hc, Nat.le_refl _, ?_⟩
    have := hg.list.pos c hc
    unfold Block.stop HEADER
    omega

/-- Some of the allocated blocks stay, with the same headers in `h'`, and the free
blocks are now `l'`. -/
theorem update {live' : List Alloc} (hsub : live'.Sublist live) (hl : FreeList base h' l')
    (hsizes : ∀ x ∈ live', h'.size (x.ptr - HEADER) = h.size (x.ptr - HEADER))
    (hfree : ∀ x ∈ live', ∀ a, (x.block h).Has a → ¬ Covers l' a)
    (hcovers : ∀ a, (Covers l' a ∨ ∃ x ∈ live', (x.block h).Has a) ↔ h'.Owns a)
    (hbrk : base + HEADER ≤ h'.brk)
    (hregions : ∀ r ∈ h'.regions, base + HEADER ≤ r.1 ∧ r.2 ≤ h'.brk) : Good base h' live' l' := by
  have hok x (hx : x ∈ live') := (hg.ok x (hsub.subset hx)).congr (hsizes x hx)
  refine ⟨hl, fun x hx => (hok x hx).1, ?_, ?_, fun a => ?_, hbrk, hregions⟩
  · refine (hg.apart.sublist hsub).imp_of_mem fun {x y} hx hy hxy => ?_
    unfold Alloc.Apart
    rw [(hok x hx).2, (hok y hy).2]
    exact hxy
  · intro x hx
    rw [(hok x hx).2]
    exact hfree x hx
  · rw [← hcovers a]
    refine or_congr_right (exists_congr fun x => and_congr_right fun hx => ?_)
    rw [(hok x hx).2]

theorem nodup : live.Nodup := by
  refine hg.apart.imp_of_mem fun {x y} hx _ hxy => ?_
  rintro rfl
  exact hxy _ (hg.ok x hx).has_addr (hg.ok x hx).has_addr

theorem addr_ne {x y : Alloc} (hx : x ∈ live) (hy : y ∈ live) (hne : x ≠ y) {a : Nat}
    (ha : (x.block h).Has a) : y.ptr - HEADER ≠ a := by
  rintro rfl
  exact hg.apart.forall hx hy hne _ ha (hg.ok y hy).has_addr

/-- Memory that the program writes to. -/
theorem store {x : Alloc} (hx : x ∈ live) {a : Nat} (ha : x.Owns a) (v : Header) :
    Good base { h with mem := set h.mem a v } live l := by
  have hok := hg.ok x hx
  have hhas : (x.block h).Has a := by
    have hptr := hok.ptr_eq
    have hroom := hok.room
    unfold Alloc.Owns at ha
    unfold Block.Has
    omega
  have hsize {b : Nat} (hb : b ≠ a) :
      ({ h with mem := set h.mem a v } : Heap).size b = h.size b := by
    simp [Heap.size, set_of_ne _ _ hb]
  have hne {y : Alloc} (hy : y ∈ live) : y.ptr - HEADER ≠ a := by
    rintro rfl
    by_cases hxy : y = x
    · subst hxy
      have := hok.ptr
      unfold Alloc.Owns at ha
      unfold HEADER at *
      omega
    · exact hg.addr_ne hx hy (Ne.symm hxy) hhas rfl
  refine hg.update (List.Sublist.refl live) (hg.list.congr (fun b hb => set_of_ne _ _ ?_) rfl)
    (fun y hy => hsize (hne hy))
    hg.free hg.covers hg.brk hg.regions
  rintro rfl
  rcases List.mem_cons.mp hb with rfl | hb
  · have := hok.above
    unfold Block.Has at hhas
    unfold HEADER at this
    dsimp only at hhas
    omega
  · refine hg.free x hx _ hhas ⟨b, hb, Nat.le_refl _, ?_⟩
    have := hg.list.pos b hb
    unfold Block.stop HEADER
    omega

/-- The block of `x` goes back to the free list. -/
theorem release {x : Alloc} (hx : x ∈ live) {rounds : Nat} (hrounds : l.length < rounds) :
    ∃ h' l', h.free rounds x.ptr = some h' ∧ Good base h' (live.erase x) l' := by
  have hok := hg.ok x hx
  have hpos : 0 < (x.block h).size := by
    have hroom := hok.room
    rw [hok.ptr_eq] at hroom
    unfold Block.stop HEADER at hroom
    omega
  obtain ⟨h', l', hfree, hins⟩ := hg.list.release (b := x.block h) rfl hpos hok.bound hok.above
    (hg.free x hx) hrounds
  obtain ⟨hbrk, hregions⟩ := Heap.free_keeps hfree
  have hmem {y : Alloc} : y ∈ live.erase x ↔ y ≠ x ∧ y ∈ live := hg.nodup.mem_erase_iff
  refine ⟨h', l', hok.ptr_eq ▸ hfree, hg.update (List.erase_sublist) hins.free ?_ ?_ ?_ ?_ ?_⟩
  · intro y hy
    obtain ⟨hne, hy⟩ := hmem.mp hy
    exact hins.sizes _ (hg.addr_ne hx hy (Ne.symm hne) hok.has_addr) fun c hc => hg.not_node hy hc
  · intro y hy a hya hcovers
    obtain ⟨hne, hy⟩ := hmem.mp hy
    rcases (hins.covers a).mp hcovers with hl | hxa
    · exact hg.free y hy a hya hl
    · exact hg.apart.forall hy hx hne a hya hxa
  · intro a
    unfold Heap.Owns
    rw [hregions, hins.covers a]
    refine Iff.trans ?_ (hg.covers a)
    simp only [hmem]
    constructor
    · rintro ((hl | hxa) | ⟨y, ⟨-, hy⟩, hya⟩)
      · exact .inl hl
      · exact .inr ⟨x, hx, hxa⟩
      · exact .inr ⟨y, hy, hya⟩
    · rintro (hl | ⟨y, hy, hya⟩)
      · exact .inl (.inl hl)
      · by_cases hyx : y = x
        · exact .inl (.inr (hyx ▸ hya))
        · exact .inr ⟨y, ⟨hyx, hy⟩, hya⟩
  · rw [hbrk]
    exact hg.brk
  · rw [hbrk, hregions]
    exact hg.regions

end

variable {n nunits : Nat} {answers : List (Option Nat)}

/-- A block is given out. -/
theorem give {t : Nat} (hg : Good base h live l) (htaken : Taken base h' h ⟨t, nunits⟩ l' l)
    (habove : base + HEADER ≤ t) (hbound : t + HEADER * nunits < 2 ^ 32)
    (hroom : HEADER + n ≤ HEADER * nunits) : Good base h' (⟨t + HEADER, n⟩ :: live) l' := by
  have hblock : Alloc.block h' ⟨t + HEADER, n⟩ = ⟨t, nunits⟩ := by
    have hsize : h'.size t = nunits := htaken.size
    unfold Alloc.block
    simp [hsize]
  -- the block was free
  have hwas {a : Nat} (ha : (⟨t, nunits⟩ : Block).Has a) : Covers l a :=
    (htaken.covers a).mpr (.inr ha)
  have hhas : (⟨t, nunits⟩ : Block).Has t := by
    unfold Block.Has Block.stop
    unfold HEADER at *
    dsimp only
    omega
  have hok y (hy : y ∈ live) : y.Ok base h' ∧ y.block h' = y.block h := by
    refine (hg.ok y hy).congr (htaken.sizes _ ?_ fun c hc => hg.not_node hy hc)
    intro heq
    have haddr : (y.block h).addr = t := heq
    exact hg.free y hy t (haddr ▸ (hg.ok y hy).has_addr) (hwas hhas)
  refine ⟨htaken.list, ?_, ?_, ?_, ?_, ?_, ?_⟩
  · intro y hy
    rcases List.mem_cons.mp hy with rfl | hy
    · refine ⟨by simp, ?_, ?_, ?_⟩ <;> rw [hblock]
      · exact habove
      · exact hbound
      · unfold Block.stop
        dsimp only
        omega
    · exact (hok y hy).1
  · refine List.pairwise_cons.mpr
      ⟨fun y hy a hta hya => ?_, hg.apart.imp_of_mem fun {x y} hx hy hxy => ?_⟩
    · rw [hblock] at hta
      rw [(hok y hy).2] at hya
      exact hg.free y hy a hya (hwas hta)
    · unfold Alloc.Apart
      rw [(hok x hx).2, (hok y hy).2]
      exact hxy
  · intro y hy a hya hcovers
    rcases List.mem_cons.mp hy with rfl | hy
    · rw [hblock] at hya
      exact htaken.disjoint a hya hcovers
    · rw [(hok y hy).2] at hya
      exact hg.free y hy a hya ((htaken.covers a).mpr (.inl hcovers))
  · intro a
    unfold Heap.Owns
    rw [htaken.regions]
    refine Iff.trans ?_ (hg.covers a)
    rw [htaken.covers a, or_assoc]
    refine or_congr_right ?_
    simp only [List.mem_cons, exists_eq_or_imp, hblock]
    refine or_congr_right (exists_congr fun y => and_congr_right fun hy => ?_)
    rw [(hok y hy).2]
  · rw [htaken.brk]
    exact hg.brk
  · rw [htaken.brk, htaken.regions]
    exact hg.regions

/-- New memory from `sbrk` goes to the free list. -/
theorem extend {nu gap rounds : Nat} (hg : Good base h live l) (hpos : 0 < nu)
    (hbound : h.brk + gap + nu * HEADER < 2 ^ 32) (hrounds : l.length < rounds) :
    ∃ h' l', (Heap.setSize { h with
        brk := h.brk + gap + nu * HEADER
        regions := h.regions ++ [(h.brk + gap, h.brk + gap + nu * HEADER)] }
        (h.brk + gap) nu).free rounds (h.brk + gap + HEADER) = some h' ∧
      Good base h' live l' ∧ (∃ c ∈ l', nu ≤ c.size) ∧ l'.length ≤ l.length + 1 := by
  obtain ⟨p, hp⟩ : ∃ p, p = h.brk + gap := ⟨_, rfl⟩
  rw [← hp] at hbound ⊢
  obtain ⟨g, hgdef⟩ : ∃ g : Heap, g = { h with
    brk := p + nu * HEADER, regions := h.regions ++ [(p, p + nu * HEADER)] } := ⟨_, rfl⟩
  rw [← hgdef]
  have hbrk := hg.brk
  -- what there was is below `p`
  have hbelow {a : Nat} (ha : h.Owns a) : a < p := by
    obtain ⟨r, hr, -, hlt⟩ := ha
    have := (hg.regions r hr).2
    omega
  have hmem {a : Nat} (ha : a ≠ p) : (g.setSize p nu).mem a = h.mem a := by
    rw [hgdef]
    exact set_of_ne _ _ ha
  have hsize {a : Nat} (ha : a ≠ p) : (g.setSize p nu).size a = h.size a := by
    unfold Heap.size
    rw [hmem ha]
  have hnode {c : Block} (hc : c ∈ nodes base l) : c.addr ≠ p := by
    rcases List.mem_cons.mp hc with rfl | hc
    · unfold HEADER at hbrk
      dsimp only
      omega
    · have hpos := hg.list.pos c hc
      have hcov : Covers l c.addr := ⟨c, hc, Nat.le_refl _, by unfold Block.stop HEADER; omega⟩
      have := hbelow ((hg.covers c.addr).mp (.inl hcov))
      omega
  have hlive {x : Alloc} (hx : x ∈ live) : x.ptr - HEADER ≠ p := by
    have hok := hg.ok x hx
    have := hbelow ((hg.covers _).mp (.inr ⟨x, hx, hok.has_addr⟩))
    exact Nat.ne_of_lt this
  have hl : FreeList base (g.setSize p nu) l :=
    hg.list.congr (fun b hb => hmem (hnode hb)) (by rw [hgdef]; rfl)
  have hstop : (⟨p, nu⟩ : Block).stop = p + nu * HEADER := by
    unfold Block.stop
    rw [Nat.mul_comm]
  obtain ⟨h', l', hfree, hins⟩ := hl.release (b := ⟨p, nu⟩) (g.size_setSize_self p nu) hpos
    (by rw [hstop]; exact hbound) (by dsimp only; omega) (fun a ha hcov => by
      have := hbelow ((hg.covers a).mp (.inl hcov))
      unfold Block.Has at ha
      dsimp only at ha
      omega) hrounds
  obtain ⟨hbrk', hregions'⟩ := Heap.free_keeps hfree
  have hbrkg : (g.setSize p nu).brk = p + nu * HEADER := by rw [hgdef]; rfl
  have hregionsg : (g.setSize p nu).regions = h.regions ++ [(p, p + nu * HEADER)] := by
    rw [hgdef]
    rfl
  refine ⟨h', l', hfree, hg.update (List.Sublist.refl live) hins.free ?_ ?_ ?_ ?_ ?_, hins.fits,
    hins.length⟩
  · intro x hx
    rw [hins.sizes _ (hlive hx) fun c hc => hg.not_node hx hc, hsize (hlive hx)]
  · intro x hx a hxa hcov
    rcases (hins.covers a).mp hcov with hcov | ha
    · exact hg.free x hx a hxa hcov
    · have := hbelow ((hg.covers a).mp (.inr ⟨x, hx, hxa⟩))
      unfold Block.Has at ha
      dsimp only at ha
      omega
  · intro a
    have hhas : (⟨p, nu⟩ : Block).Has a ↔ p ≤ a ∧ a < p + nu * HEADER := by
      unfold Block.Has
      rw [hstop]
    have hcov := hg.covers a
    unfold Heap.Owns at hcov ⊢
    rw [hregions', hregionsg, hins.covers a, hhas]
    simp only [List.mem_append, List.mem_singleton, or_and_right, exists_or, exists_eq_left]
    rw [← hcov]
    exact or_right_comm
  · rw [hbrk', hbrkg]
    omega
  · intro r hr
    rw [hregions', hregionsg] at hr
    rw [hbrk', hbrkg]
    rcases List.mem_append.mp hr with hr | hr
    · have := hg.regions r hr
      omega
    · rw [List.mem_singleton.mp hr]
      exact ⟨by dsimp only; omega, Nat.le_refl _⟩

theorem freep_ne (hg : Good base h live l) : h.freep ≠ 0 := by
  obtain ⟨b, hb, hfreep⟩ := hg.list.freep
  have hle := hg.list.le_addr hb
  have hpos := hg.list.base_pos
  omega

/-- What a call of `malloc` for `n` bytes returns. -/
def Gives (base : Nat) (live : List Alloc) (n : Nat) (r : Option (Nat × Heap)) : Prop :=
  ∃ ptr h' l', r = some (ptr, h') ∧
    Good base h' (if ptr = 0 then live else ⟨ptr, n⟩ :: live) l'

/-- It returns a block. -/
def GivesBlock (base : Nat) (live : List Alloc) (n : Nat) (r : Option (Nat × Heap)) : Prop :=
  ∃ ptr h' l', r = some (ptr, h') ∧ ptr ≠ 0 ∧ Good base h' (⟨ptr, n⟩ :: live) l'

theorem GivesBlock.gives {r : Option (Nat × Heap)} (h : GivesBlock base live n r) :
    Gives base live n r := by
  obtain ⟨ptr, h', l', hr, hne, hg⟩ := h
  refine ⟨ptr, h', l', hr, ?_⟩
  rw [if_neg hne]
  exact hg

/-- The loop has found a block. -/
theorem gives_take (hg : Good base h live l) {z x : Block} (hz : z ∈ nodes base l) (hx : x ∈ l)
    (hptr : h.ptr z.addr = x.addr) (hfit : nunits ≤ x.size) (hroom : HEADER + n ≤ HEADER * nunits) :
    GivesBlock base live n (some (h.take nunits z.addr x.addr)) := by
  have hpos : 0 < nunits := by
    unfold HEADER at hroom
    omega
  obtain ⟨t, h', l', htake, htaken, habove, hbound⟩ := hg.list.take hx hz hptr hfit hpos
  refine ⟨t + HEADER, h', l', by rw [htake], by unfold HEADER; omega, ?_⟩
  exact hg.give htaken habove hbound hroom

/-- The units that `morecore` asks for. -/
def moreUnits (nunits : Nat) : Nat := if nunits < 4096 then 4096 else nunits

theorem le_moreUnits (nunits : Nat) : nunits ≤ moreUnits nunits := by
  unfold moreUnits
  split <;> omega

theorem morecore_eq (h : Heap) (rounds : Nat) (hsmall : nunits * HEADER < 2 ^ 31)
    (answer : Option Nat) : h.morecore rounds nunits answer =
      (h.sbrk answer ((moreUnits nunits * HEADER : Nat) : Int)).elim (some (0, h)) fun r => do
        let h ← (r.2.setSize r.1 (moreUnits nunits)).free rounds (advance r.1 1)
        return (h.freep, h) := by
  have hlt : moreUnits nunits * HEADER < 2 ^ 31 := by
    unfold moreUnits
    unfold HEADER at *
    split <;> omega
  have hbytes : uint (moreUnits nunits * HEADER) = moreUnits nunits * HEADER :=
    Nat.mod_eq_of_lt (by omega)
  unfold Heap.morecore
  rw [show (if nunits < 4096 then 4096 else nunits) = moreUnits nunits from rfl]
  simp only [hbytes, hlt, if_true]
  cases h.sbrk answer ((moreUnits nunits * HEADER : Nat) : Int) <;> rfl

/-- There is no more memory. -/
theorem grow_fail {rounds : Nat} (hsmall : nunits * HEADER < 2 ^ 31)
    (hfail : ∀ gap, answers.headD none = some gap →
      2 ^ 32 ≤ h.brk + gap + moreUnits nunits * HEADER) :
    h.grow nunits rounds answers = some (0, h) := by
  have hsbrk : h.sbrk (answers.headD none) ((moreUnits nunits * HEADER : Nat) : Int) = none := by
    unfold Heap.sbrk
    cases hanswer : answers.headD none with
    | none => rfl
    | some gap =>
      have hle := hfail gap hanswer
      simp only [Int.natCast_nonneg, if_true, Int.toNat_natCast, if_neg (Nat.not_lt.mpr hle)]
  unfold Heap.grow
  rw [morecore_eq h rounds hsmall, hsbrk]
  rfl

/-- The loop asks for more memory, and gets it. -/
theorem givesBlock_grow {rounds gap : Nat} (hg : Good base h live l)
    (hroom : HEADER + n ≤ HEADER * nunits) (hsmall : nunits * HEADER < 2 ^ 31)
    (hrounds : l.length + 1 < rounds) (hanswer : answers.headD none = some gap)
    (hfits : h.brk + gap + moreUnits nunits * HEADER < 2 ^ 32) :
    GivesBlock base live n (h.grow nunits rounds answers) := by
  have hle := le_moreUnits nunits
  have hnpos : 0 < nunits := by
    unfold HEADER at hroom
    omega
  have hmore := morecore_eq h rounds hsmall (answers.headD none)
  rw [hanswer] at hmore
  unfold Heap.sbrk at hmore
  simp only [Int.natCast_nonneg, if_true, Int.toNat_natCast] at hmore
  rw [if_pos hfits] at hmore
  obtain ⟨h', l', hfree, hg', ⟨c, hc, hcsize⟩, hlen⟩ :=
    hg.extend (show 0 < moreUnits nunits by omega) hfits (show l.length < rounds by omega)
  have hadv : advance (h.brk + gap) 1 = h.brk + gap + HEADER :=
    Nat.mod_eq_of_lt (by unfold HEADER at *; omega)
  dsimp only [Option.elim_some] at hmore
  rw [hadv, hfree] at hmore
  have hgrow : h.grow nunits rounds answers =
      Heap.scan nunits rounds h' h'.freep (h'.ptr h'.freep) answers.tail := by
    unfold Heap.grow
    rw [hanswer, hmore]
    exact if_neg hg'.freep_ne
  rw [hgrow]
  rcases hg'.list.scan_ring hnpos (show l'.length < rounds by omega)
    with ⟨z, hz, x, hx, hptr, hfit, hscan⟩ | ⟨hnone, -⟩
  · rw [hscan]
    exact hg'.gives_take hz hx hptr hfit hroom
  · have := hnone c hc
    omega

/-- The loop asks for more memory. -/
theorem gives_grow {rounds : Nat} (hg : Good base h live l) (hroom : HEADER + n ≤ HEADER * nunits)
    (hsmall : nunits * HEADER < 2 ^ 31) (hrounds : l.length + 1 < rounds) :
    Gives base live n (h.grow nunits rounds answers) := by
  by_cases hmore : ∃ gap, answers.headD none = some gap ∧
      h.brk + gap + moreUnits nunits * HEADER < 2 ^ 32
  · obtain ⟨gap, hanswer, hfits⟩ := hmore
    exact (hg.givesBlock_grow hroom hsmall hrounds hanswer hfits).gives
  · refine ⟨0, h, l, grow_fail hsmall fun gap hanswer => ?_, hg⟩
    by_contra hlt
    exact hmore ⟨gap, hanswer, Nat.not_le.mp hlt⟩

theorem malloc {rounds : Nat} (hg : Good base h live l) (answers : List (Option Nat))
    (hn : n + 15 < 2 ^ 31) (hrounds : 2 * l.length + 3 ≤ rounds) :
    Gives base live n (Heap.scan (uint (n + HEADER - 1) / HEADER + 1) rounds h h.freep
      (h.ptr h.freep) answers) := by
  obtain ⟨nunits, hnunits⟩ : ∃ nunits, nunits = uint (n + HEADER - 1) / HEADER + 1 := ⟨_, rfl⟩
  have hunits : nunits = (n + 7) / 8 + 1 := by
    rw [hnunits]
    unfold uint HEADER
    omega
  have hroom : HEADER + n ≤ HEADER * nunits := by
    unfold HEADER
    omega
  have hsmall : nunits * HEADER < 2 ^ 31 := by
    unfold HEADER
    omega
  rw [← hnunits]
  rcases hg.list.scan_ring (show 0 < nunits by omega) (show l.length < rounds by omega)
    with ⟨z, hz, x, hx, hptr, hfit, hscan⟩ | ⟨-, r, hr, hscan⟩
  · rw [hscan]
    exact (hg.gives_take hz hx hptr hfit hroom).gives
  · rw [hscan]
    exact hg.gives_grow hroom hsmall (by omega)

/-- Before the first call the list is not there yet. -/
theorem init (h : Heap) (hbase : 0 < base) (hregions : h.regions = [])
    (hbrk : base + HEADER ≤ h.brk) : Good base (h.init base) [] [] where
  list :=
    { base_pos := hbase
      ring := ⟨rfl, by simp [Seg, Heap.init, Heap.ptr]⟩
      size := by simp [Heap.init, Heap.size]
      order := List.pairwise_singleton _ _
      above := nofun
      pos := nofun
      bound := nofun
      freep := ⟨⟨base, 0⟩, List.mem_singleton_self _, rfl⟩ }
  ok := nofun
  apart := List.Pairwise.nil
  free := nofun
  covers := by simp [Covers, Heap.Owns, Heap.init, hregions]
  brk := hbrk
  regions := by
    intro r hr
    change r ∈ h.regions at hr
    rw [hregions] at hr
    cases hr

end Good

/-! ### Runs -/

/-- A run has not called `malloc` yet, or the heap is in order. -/
inductive Reached (base : Nat) (s : State) : Prop
  | fresh (hfreep : s.heap.freep = 0) (hlive : s.live = []) (hregions : s.heap.regions = [])
      (hbrk : s.heap.brk = base + HEADER)
  | good (l : List Block) (hgood : Good base s.heap s.live l)

section Runs

variable {base rounds : Nat} {s s' : State}

/-- Requests that `nunits * sizeof(Header)` is a positive `int` for. -/
def Act.Small : Act → Prop
  | .malloc n _ => n < 2 ^ 31 - 64
  | .free _ => True
  | .store _ _ => True

/-- Requests that `malloc` can round up and pass to `sbrk`. -/
def Act.Fits : Act → Prop
  | .malloc n _ => n + 15 < 2 ^ 31
  | .free _ => True
  | .store _ _ => True

variable {a : Act}

theorem Act.Small.fits (h : a.Small) : a.Fits := by
  cases a with
  | malloc n answers =>
    unfold Act.Small at h
    unfold Act.Fits
    dsimp only at *
    omega
  | free ptr => trivial
  | store a x => trivial

theorem step_mono {rounds' : Nat} (hle : rounds ≤ rounds')
    (hstep : step base rounds s a = some s') :
    step base rounds' s a = some s' := by
  cases a with
  | malloc n answers =>
    obtain ⟨r, hr, hs'⟩ := Option.bind_eq_some_iff.mp hstep
    exact Option.bind_eq_some_iff.mpr ⟨r, malloc_mono hle hr, hs'⟩
  | free ptr =>
    unfold step at hstep ⊢
    dsimp only at hstep ⊢
    split at hstep
    · cases hstep
    · obtain ⟨h, hh, hs'⟩ := Option.bind_eq_some_iff.mp hstep
      exact Option.bind_eq_some_iff.mpr ⟨h, free_mono hle hh, hs'⟩
  | store a x => exact hstep

/-- The heap that `malloc` works on: the first call makes the list. -/
def Heap.ready (h : Heap) (base : Nat) : Heap := if h.freep = 0 then h.init base else h

theorem Heap.ready_brk (h : Heap) (base : Nat) : (h.ready base).brk = h.brk := by
  unfold Heap.ready
  split <;> rfl

theorem Heap.malloc_eq (h : Heap) (base rounds n : Nat) (answers : List (Option Nat)) :
    h.malloc base rounds n answers = Heap.scan (uint (n + HEADER - 1) / HEADER + 1) rounds
      (h.ready base) (h.ready base).freep ((h.ready base).ptr (h.ready base).freep) answers := rfl

theorem Reached.ready (hs : Reached base s) (hbase : 0 < base) :
    ∃ l, Good base (s.heap.ready base) s.live l := by
  unfold Heap.ready
  cases hs with
  | fresh hfreep hlive hregions hbrk =>
    rw [if_pos hfreep, hlive]
    exact ⟨[], Good.init s.heap hbase hregions (le_of_eq hbrk.symm)⟩
  | good l hg =>
    rw [if_neg hg.freep_ne]
    exact ⟨l, hg⟩

/-- The call `malloc` ends, given enough rounds, and leaves the heap in order. -/
theorem Reached.malloc {n : Nat} (hs : Reached base s) (hbase : 0 < base) (hn : n + 15 < 2 ^ 31)
    (answers : List (Option Nat)) :
    ∃ rounds s', step base rounds s (.malloc n answers) = some s' ∧ Reached base s' := by
  obtain ⟨l, hg⟩ := hs.ready hbase
  obtain ⟨ptr, h', l', hret, hg'⟩ := hg.malloc answers hn (Nat.le_refl _)
  refine ⟨2 * l.length + 3, ⟨h', if ptr = 0 then s.live else ⟨ptr, n⟩ :: s.live⟩, ?_, .good l' hg'⟩
  unfold step
  dsimp only
  rw [Heap.malloc_eq, hret]
  rfl

theorem Reached.free {x : Alloc} (hs : Reached base s) (hx : x ∈ s.live) :
    ∃ rounds s', step base rounds s (.free x.ptr) = some s' ∧ Reached base s' := by
  cases hs with
  | fresh hfreep hlive hregions hbrk =>
    rw [hlive] at hx
    cases hx
  | good l hg =>
    -- the first allocation with this pointer
    have hsome : (s.live.find? fun y => decide (y.ptr = x.ptr)).isSome = true :=
      List.find?_isSome.mpr ⟨x, hx, by simp⟩
    obtain ⟨y, hy⟩ := Option.isSome_iff_exists.mp hsome
    have hptr : y.ptr = x.ptr := by simpa using List.find?_some hy
    obtain ⟨h', l', hfree, hg'⟩ := hg.release (List.mem_of_find?_eq_some hy)
      (Nat.lt_succ_self l.length)
    refine ⟨l.length + 1, ⟨h', s.live.erase y⟩, ?_, .good l' hg'⟩
    unfold step
    dsimp only
    rw [hy, ← hptr]
    dsimp only
    rw [hfree]
    rfl

theorem Reached.store {a : Nat} {v : Header} (hs : Reached base s)
    (hstep : step base rounds s (.store a v) = some s') : Reached base s' := by
  unfold step at hstep
  simp only [Option.ite_none_right_eq_some, Option.some.injEq] at hstep
  obtain ⟨⟨x, hx, ha⟩, rfl⟩ := hstep
  cases hs with
  | fresh hfreep hlive hregions hbrk =>
    rw [hlive] at hx
    cases hx
  | good l hg => exact .good l (hg.store hx ha v)

/-- Steps with fewer rounds give the same result, if any. -/
theorem Reached.of_step {t : State} {rounds' : Nat} (ht : Reached base t)
    (hmore : step base rounds' s a = some t) (hstep : step base rounds s a = some s') :
    Reached base s' := by
  have h₁ := step_mono (Nat.le_max_left rounds rounds') hstep
  have h₂ := step_mono (Nat.le_max_right rounds rounds') hmore
  rw [h₁] at h₂
  cases h₂
  exact ht

theorem Reached.step (hs : Reached base s) (hbase : 0 < base) (ha : a.Fits)
    (hstep : Umalloc.step base rounds s a = some s') : Reached base s' := by
  cases a with
  | malloc n answers =>
    obtain ⟨r, t, hmore, ht⟩ := hs.malloc hbase ha answers
    exact ht.of_step hmore hstep
  | free ptr =>
    obtain ⟨x, hx, rfl⟩ : ∃ x ∈ s.live, x.ptr = ptr := by
      unfold Umalloc.step at hstep
      dsimp only at hstep
      split at hstep
      · cases hstep
      · next x hx => exact ⟨x, List.mem_of_find?_eq_some hx, by simpa using List.find?_some hx⟩
    obtain ⟨r, t, hmore, ht⟩ := hs.free hx
    exact ht.of_step hmore hstep
  | store a v => exact hs.store hstep

theorem Reached.of_run {mem : Nat → Header} {acts : List Act} (hbase : 0 < base)
    (hfits : ∀ a ∈ acts, a.Fits)
    (hrun : exec (Umalloc.step base rounds) (start base mem) acts = some s) :
    Reached base s :=
  exec_invariant_of_allSteps (Reached base) (.fresh rfl rfl rfl rfl)
    (fun _ _ _ hs ha hstep => hs.step hbase ha hstep) (allSteps_of_forall hfits _) hrun

end Runs

/-- Whatever a program allocates, frees and writes, and whenever `sbrk` fails:
the free list is a ring through `base` in the order of addresses, no two of its
blocks touch, it and the allocated blocks lie apart from each other and make up
the memory from `sbrk`, and every allocated block has room for what was asked
for. The loops of `malloc` and `free` end. -/
theorem heap_in_order {base rounds : Nat} {mem : Nat → Header} {acts : List Act} {s : State}
    (hbase : 0 < base) (hsmall : ∀ a ∈ acts, a.Small)
    (hrun : exec (step base rounds) (start base mem) acts = some s) :
    ((s.heap.freep = 0 ∧ s.live = [] ∧ s.heap.regions = []) ∨
      ∃ l, Good base s.heap s.live l) ∧
    (∀ n answers, n < 2 ^ 31 - 64 → ∃ r, ∀ r' ≥ r,
      (step base r' s (.malloc n answers)).isSome = true) ∧
    ∀ x ∈ s.live, ∃ r, ∀ r' ≥ r, (step base r' s (.free x.ptr)).isSome = true := by
  have hs : Reached base s := Reached.of_run hbase (fun a ha => (hsmall a ha).fits) hrun
  refine ⟨?_, fun n answers hn => ?_, fun x hx => ?_⟩
  · cases hs with
    | fresh hfreep hlive hregions hbrk => exact .inl ⟨hfreep, hlive, hregions⟩
    | good l hg => exact .inr ⟨l, hg⟩
  · obtain ⟨r, t, ht, -⟩ := hs.malloc hbase (show n + 15 < 2 ^ 31 by omega) answers
    exact ⟨r, fun r' hr' => by rw [step_mono hr' ht]; rfl⟩
  · obtain ⟨r, t, ht, -⟩ := hs.free hx
    exact ⟨r, fun r' hr' => by rw [step_mono hr' ht]; rfl⟩

/-- Two blocks; the first is written to and goes back, and a third is cut from
what is free. -/
def threeBlocks : List Act :=
  [.malloc 10 [some 0], .malloc 100 [], .store 40952 ⟨7, 7⟩, .free 40952, .malloc 50 []]

theorem heap_in_order_threeBlocks :
    ∃ s, exec (step 8192 5) (start 8192 fun _ => ⟨0, 0⟩) threeBlocks = some s ∧
      s.live.map Alloc.n = [50, 100] ∧
      ((s.heap.freep = 0 ∧ s.live = [] ∧ s.heap.regions = []) ∨
        ∃ l, Good 8192 s.heap s.live l) := by
  obtain ⟨s, hs, hlive⟩ : ∃ s,
      exec (step 8192 5) (start 8192 fun _ => ⟨0, 0⟩) threeBlocks = some s ∧
      s.live.map Alloc.n = [50, 100] := by decide +kernel
  have hsmall : ∀ a ∈ threeBlocks, a.Small := by
    simp [threeBlocks, Act.Small]
  exact ⟨s, hs, hlive, (heap_in_order (by decide) hsmall hs).1⟩

end Xv6.Umalloc
