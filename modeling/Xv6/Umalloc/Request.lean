import Xv6.Umalloc.Heap

/-!
Requests near the top of the `uint`s. `nbytes + sizeof(Header) - 1` and
`nu * sizeof(Header)` wrap, and `sbrk` takes the latter for an `int`.
-/

namespace Xv6.Umalloc

open Prog Transition

/-- What `morecore` passes to `sbrk`. -/
def amount (nunits : Nat) : Int :=
  let nu := if nunits < 4096 then 4096 else nunits
  let n := uint (nu * HEADER)
  if n < 2 ^ 31 then n else (n : Int) - 2 ^ 32

/-- The loop of `malloc`, with the arguments of the calls of `sbrk` that it makes. -/
def Heap.asked (nunits : Nat) : Nat → Heap → Nat → Nat → List (Option Nat) →
    Option (Nat × Heap) × List Int
  | 0, _, _, _, _ => (none, [])
  | rounds + 1, h, prevp, p, answers =>
    if nunits ≤ h.size p then (some (h.take nunits prevp p), [])
    else if p = h.freep then
      let (r, asks) := match h.morecore rounds nunits (answers.headD none) with
        | none => (none, [])
        | some (p, h) =>
          if p = 0 then (some (0, h), []) else asked nunits rounds h p (h.ptr p) answers.tail
      (r, amount nunits :: asks)
    else asked nunits rounds h p (h.ptr p) answers

/-- `nunits` of `malloc`. -/
def units (nbytes : Nat) : Nat := uint (nbytes + HEADER - 1) / HEADER + 1

/-- The calls of `sbrk` in `malloc(nbytes)`. -/
def Heap.mallocAsks (h : Heap) (base rounds nbytes : Nat) (answers : List (Option Nat)) :
    List Int :=
  let h := h.ready base
  (asked (units nbytes) rounds h h.freep (h.ptr h.freep) answers).2

/-- `malloc(n)` ends. If it returns a block then its `n` bytes are memory from
`sbrk` and no other block has any of them, and `sbrk` is not called with a
negative amount. -/
def State.Safe (base : Nat) (s : State) (n : Nat) (answers : List (Option Nat)) : Prop :=
  ∃ r, ∀ rounds, r ≤ rounds → ∃ ptr h,
    s.heap.malloc base rounds n answers = some (ptr, h) ∧
    (ptr ≠ 0 → ∀ a, (⟨ptr, n⟩ : Alloc).Owns a → h.Owns a ∧ ∀ y ∈ s.live, ¬ (y.block h).Has a) ∧
    ∀ z ∈ s.heap.mallocAsks base rounds n answers, 0 ≤ z

/-! ### What `sbrk` is asked for -/

section Asked

variable {nunits rounds prevp p z : Nat} {h : Heap} {answers : List (Option Nat)}

/-- The loop that records its calls is the loop of `malloc`. -/
theorem asked_scan : (Heap.asked nunits rounds h prevp p answers).1 =
    Heap.scan nunits rounds h prevp p answers := by
  induction rounds generalizing h prevp p answers with
  | zero => rfl
  | succ rounds ih =>
    rw [Heap.asked, Heap.scan]
    split
    · rfl
    · split
      · cases h.morecore rounds nunits (answers.headD none) with
        | none => rfl
        | some r =>
          dsimp only [Option.bind_eq_bind, Option.bind_some]
          split
          · rfl
          · exact ih
      · exact ih

theorem eq_amount_of_mem_asked {z : Int}
    (hz : z ∈ (Heap.asked nunits rounds h prevp p answers).2) : z = amount nunits := by
  induction rounds generalizing h prevp p answers with
  | zero => cases hz
  | succ rounds ih =>
    rw [Heap.asked] at hz
    split at hz
    · cases hz
    · split at hz
      · rcases List.mem_cons.mp hz with rfl | hz
        · rfl
        · split at hz
          · cases hz
          · split at hz
            · cases hz
            · exact ih hz
      · exact ih hz

theorem amount_of_small (h : nunits * HEADER < 2 ^ 31) : 0 ≤ amount nunits := by
  unfold amount uint
  unfold HEADER at *
  dsimp only
  split <;> split <;> omega

theorem amount_neg (hge : 2 ^ 28 ≤ nunits) (hlt : nunits < 2 ^ 29) : amount nunits < 0 := by
  unfold amount uint HEADER
  dsimp only
  have hmore : ¬ nunits < 4096 := by omega
  rw [if_neg hmore]
  split <;> omega

theorem morecore_amount (h : Heap) (rounds nunits : Nat) (answer : Option Nat) :
    h.morecore rounds nunits answer = match h.sbrk answer (amount nunits) with
      | none => some (0, h)
      | some (p, h) => do
        let h ← (h.setSize p (Good.moreUnits nunits)).free rounds (advance p 1)
        return (h.freep, h) := rfl

/-- If no block is large enough the loop comes to `sbrk`. -/
theorem amount_mem_asked {m : List Nat} (hseg : Seg h.ptr p m h.freep)
    (hfreep : h.freep ∉ m) (hsmall : ∀ a ∈ m, h.size a < nunits) (hlast : h.size h.freep < nunits)
    (hrounds : m.length < rounds) :
    amount nunits ∈ (Heap.asked nunits rounds h prevp p answers).2 := by
  induction m generalizing prevp p rounds with
  | nil =>
    obtain ⟨rounds, rfl⟩ := Nat.exists_eq_succ_of_ne_zero (Nat.ne_zero_of_lt hrounds)
    obtain rfl : p = h.freep := hseg
    rw [Heap.asked, if_neg (by omega), if_pos rfl]
    exact List.mem_cons_self
  | cons a m ih =>
    obtain ⟨rounds, rfl⟩ := Nat.exists_eq_succ_of_ne_zero (Nat.ne_zero_of_lt hrounds)
    obtain ⟨rfl, hseg⟩ := hseg
    have hp := hsmall p List.mem_cons_self
    have hne : p ≠ h.freep := fun heq => hfreep (heq ▸ List.mem_cons_self)
    rw [Heap.asked, if_neg (by omega), if_neg hne]
    exact ih hseg (fun hm => hfreep (List.mem_cons_of_mem p hm))
      (fun a ha => hsmall a (List.mem_cons_of_mem p ha)) (Nat.lt_of_succ_lt_succ hrounds)

end Asked

/-! ### Requests that fit -/

section Calls

variable {base n : Nat} {h : Heap} {s : State} {live : List Alloc} {l : List Block}

theorem Good.owned {x : Alloc} {a : Nat} (hg : Good base h (x :: live) l) (ha : x.Owns a) :
    h.Owns a ∧ ∀ y ∈ live, ¬ (y.block h).Has a := by
  have hok := hg.ok x List.mem_cons_self
  have hhas : (x.block h).Has a := by
    have hptr := hok.ptr_eq
    have hroom := hok.room
    unfold Alloc.Owns at ha
    unfold Block.Has
    omega
  refine ⟨(hg.covers a).mp (.inr ⟨x, List.mem_cons_self, hhas⟩), fun y hy hya => ?_⟩
  exact (List.pairwise_cons.mp hg.apart).1 y hy a hhas hya

theorem units_of_le (hn : n + 7 < 2 ^ 32) : units n = (n + 7) / 8 + 1 := by
  unfold units uint HEADER
  omega

theorem Reached.safe (hs : Reached base s) (hbase : 0 < base) (hn : n + 15 < 2 ^ 31)
    (answers : List (Option Nat)) : s.Safe base n answers := by
  obtain ⟨l, hg⟩ := hs.ready hbase
  refine ⟨2 * l.length + 3, fun rounds hrounds => ?_⟩
  obtain ⟨ptr, h', l', hret, hg'⟩ := hg.malloc answers hn hrounds
  refine ⟨ptr, h', hret, fun hne a ha => ?_, fun z hz => ?_⟩
  · rw [if_neg hne] at hg'
    exact hg'.owned ha
  · rw [eq_amount_of_mem_asked hz]
    apply amount_of_small
    rw [units_of_le (by omega)]
    unfold HEADER
    omega

/-! ### Requests that do not -/

/-- The memory that the heap has is below its end. -/
theorem Good.stop_le (hg : Good base h live l) {c : Block} (hc : c ∈ l) : c.stop ≤ h.brk := by
  have hpos := hg.list.pos c hc
  have hcov : Covers l (c.stop - 1) := by
    refine ⟨c, hc, ?_, ?_⟩
    · unfold Block.stop HEADER
      omega
    · unfold Block.stop HEADER
      omega
  obtain ⟨r, hr, -, hlt⟩ := (hg.covers _).mp (.inl hcov)
  have := (hg.regions r hr).2
  omega

/-- No free block has half of the address space. -/
theorem Good.size_lt (hg : Good base h live l) (hbrk : h.brk ≤ 2 ^ 31) {c : Block}
    (hc : c ∈ nodes base l) :
    c.size < 2 ^ 28 := by
  rcases List.mem_cons.mp hc with rfl | hc
  · exact Nat.two_pow_pos 28
  · have hstop := hg.stop_le hc
    have habove := hg.list.above c hc
    unfold Block.stop HEADER at *
    omega

/-- The product with `sizeof(Header)` is a negative `int`. -/
theorem Good.asks_negative {rounds : Nat} (hg : Good base (s.heap.ready base) live l)
    (hbrk : s.heap.brk ≤ 2 ^ 31) (hn : 2 ^ 31 ≤ n + 15) (hlt : n + 15 < 2 ^ 32)
    (answers : List (Option Nat)) (hrounds : l.length < rounds) :
    ∃ z ∈ s.heap.mallocAsks base rounds n answers, z < 0 := by
  have hunits := units_of_le (n := n) (by omega)
  have hsize {c : Block} (hc : c ∈ nodes base l) : c.size < units n := by
    have := hg.size_lt (by rw [Heap.ready_brk]; exact hbrk) hc
    omega
  obtain ⟨m, hseg, hfreep, hlen, hnodes, -⟩ := hg.list.ring_from_freep
  refine ⟨amount (units n), amount_mem_asked hseg hfreep (fun a ha => ?_) ?_ (hlen ▸ hrounds),
    amount_neg (by omega) (by omega)⟩
  · obtain ⟨x, hx, rfl⟩ := hnodes a ha
    rw [hg.list.size x hx]
    exact hsize hx
  · obtain ⟨y, hy, hyp⟩ := hg.list.freep
    rw [hyp, hg.list.size y hy]
    exact hsize hy

/-- The request wraps to one unit: a block without room comes back. -/
theorem Good.tiny_block {rounds : Nat} (hg : Good base h live l) (hbrk : h.brk ≤ 2 ^ 31)
    (hrounds : 2 * l.length + 3 ≤ rounds) :
    GivesBlock base live 0 (Heap.scan 1 rounds h h.freep (h.ptr h.freep) [some 0]) := by
  rcases hg.list.scan_ring (show 0 < 1 by decide) (show l.length < rounds by omega)
    with ⟨z, hz, x, hx, hptr, hfit, hscan⟩ | ⟨-, r, hr, hscan⟩
  · rw [hscan]
    exact hg.gives_take hz hx hptr hfit (by decide)
  · rw [hscan]
    refine hg.givesBlock_grow (by decide) (by decide) (by omega) rfl ?_
    rw [show moreUnits 1 * HEADER = 32768 from rfl]
    omega

/-- A block of `2 ^ 29` units above all the others goes after the last one; its end
is where it begins. -/
theorem FreeList.free_huge {p r : Nat} (hl : FreeList base h l)
    (hstops : ∀ c ∈ nodes base l, c.stop < p)
    (hp : p + HEADER < 2 ^ 32) (hsize : h.size p = 2 ^ 29) (hr : l.length < r) :
    ∃ x ∈ nodes base l, h.free r (p + HEADER) =
      some { (h.setPtr p base).setPtr x.addr p with freep := x.addr } := by
  have haddr {c : Block} (hc : c ∈ nodes base l) : c.addr < p := by
    have := hstops c hc
    unfold Block.stop at this
    omega
  have hbase : base < p := haddr List.mem_cons_self
  obtain ⟨l₁, x, l₂, heq, hlt, hgt, hfound⟩ := hl.search hbase
    (fun b hb => Nat.ne_of_lt (haddr (List.mem_cons_of_mem _ hb))) hr
  obtain rfl : l₂ = [] := by
    cases l₂ with
    | nil => rfl
    | cons y l₂ =>
      have hy := hgt y List.mem_cons_self
      have := haddr (show y ∈ nodes base l by rw [heq]; simp)
      omega
  have hx : x ∈ nodes base l := by rw [heq]; simp
  have hptr : h.ptr x.addr = base := hl.ptr_eq heq
  have hnext : h.joinNext p base = h.setPtr p base := by
    have hwrap : advance p (2 ^ 29) = p := by
      unfold advance uint HEADER at *
      omega
    unfold Heap.joinNext
    rw [hsize, hwrap, if_neg (Nat.ne_of_gt hbase)]
  have hprev : (h.setPtr p base).joinPrev p x.addr = (h.setPtr p base).setPtr x.addr p := by
    have hstop := hstops x hx
    unfold Heap.joinPrev advance
    rw [Heap.size_setPtr, hl.size x hx, show x.addr + HEADER * x.size = x.stop from rfl,
      show uint x.stop = x.stop from Nat.mod_eq_of_lt (by omega), if_neg (Nat.ne_of_lt hstop)]
  refine ⟨x, hx, ?_⟩
  have hbp : uint (p + HEADER + (2 ^ 32 - HEADER)) = p := by
    unfold uint HEADER at *
    omega
  unfold Heap.free
  rw [hbp]
  dsimp only
  rw [hfound]
  change some (h.insert p x.addr) = _
  unfold Heap.insert
  rw [hptr, hnext, hprev]

/-- `2 ^ 29` units are no bytes: `sbrk(0)` gives no memory, but the block is put in
the list all the same and comes back. -/
theorem Good.huge_block {rounds : Nat} (hg : Good base h live l) (hbrk : h.brk ≤ 2 ^ 31)
    (hrounds : 2 * l.length + 3 ≤ rounds) :
    ∃ h', Heap.scan (2 ^ 29) rounds h h.freep (h.ptr h.freep) [some 8] =
        some (h.brk + 16, h') ∧ h'.regions = h.regions ++ [(h.brk + 8, h.brk + 8)] := by
  obtain ⟨p, hp⟩ : ∃ p, p = h.brk + 8 := ⟨_, rfl⟩
  have hbase := hg.brk
  have hstops : ∀ c ∈ nodes base l, c.stop < p := by
    intro c hc
    rcases List.mem_cons.mp hc with rfl | hc
    · unfold Block.stop HEADER at *
      dsimp only
      omega
    · have := hg.stop_le hc
      omega
  rcases hg.list.scan_ring (show 0 < 2 ^ 29 by decide) (show l.length < rounds by omega)
    with ⟨z, hz, x, hx, hptr, hfit, hscan⟩ | ⟨-, r, hr, hscan⟩
  · have := hg.size_lt hbrk (List.mem_cons_of_mem _ hx)
    omega
  · -- the heap after `sbrk`, with the header of the new block
    obtain ⟨g, hgdef⟩ : ∃ g : Heap, g = Heap.setSize
        { h with brk := p, regions := h.regions ++ [(p, p)] } p (2 ^ 29) := ⟨_, rfl⟩
    have hl : FreeList base g l := by
      refine hg.list.congr (fun b hb => ?_) (by rw [hgdef]; rfl)
      have := hstops b hb
      rw [hgdef]
      refine set_of_ne _ _ (Nat.ne_of_lt ?_)
      unfold Block.stop at this
      omega
    have hsize : g.size p = 2 ^ 29 := by
      rw [hgdef]
      exact Heap.size_setSize_self _ _ _
    have hsbrk : h.sbrk (some 8) (amount (2 ^ 29)) =
        some (p, { h with brk := p, regions := h.regions ++ [(p, p)] }) := by
      rw [show amount (2 ^ 29) = 0 by decide]
      unfold Heap.sbrk
      simp [← hp, show p < 4294967296 by omega]
    have hadv : advance p 1 = p + HEADER := Nat.mod_eq_of_lt (by unfold HEADER; omega)
    obtain ⟨x, hx, hfree⟩ := hl.free_huge hstops (by unfold HEADER; omega) hsize
      (show l.length < r by omega)
    have hle := hl.le_addr hx
    have hpos := hl.base_pos
    obtain ⟨r, rfl⟩ : ∃ k, r = k + 1 := ⟨r - 1, by omega⟩
    -- the loop finds the new block right after `freep`
    obtain ⟨g', hg'⟩ : ∃ g' : Heap, g' =
        { (g.setPtr p base).setPtr x.addr p with freep := x.addr } :=
      ⟨_, rfl⟩
    have hptr' : g'.ptr x.addr = p := by
      rw [hg']
      exact Heap.ptr_setPtr_self _ _ _
    have hsize' : g'.size p = 2 ^ 29 := by
      rw [hg']
      change ((g.setPtr p base).setPtr x.addr p).size p = 2 ^ 29
      rw [Heap.size_setPtr, Heap.size_setPtr, hsize]
    rw [hscan]
    unfold Heap.grow
    rw [show ([some 8] : List (Option Nat)).headD none = some 8 from rfl, morecore_amount, hsbrk]
    dsimp only
    rw [show Good.moreUnits (2 ^ 29) = 2 ^ 29 from rfl, ← hgdef, hadv, hfree, ← hg']
    simp only [Option.bind_eq_bind, Option.bind_some, Option.pure_def]
    have hfreep : g'.freep = x.addr := by rw [hg']
    rw [hfreep, hptr', if_neg (by omega), Heap.scan, if_pos (by rw [hsize'])]
    unfold Heap.take
    rw [if_pos hsize', hadv, hp]
    refine ⟨_, rfl, ?_⟩
    change g'.regions = _
    rw [hg', hgdef, hp]
    rfl

section

variable (hs : Reached base s) (hbase : 0 < base) (hbrk : s.heap.brk ≤ 2 ^ 31)
include hs hbase hbrk

theorem Reached.not_safe_negative (hn : 2 ^ 31 ≤ n + 15) (hlt : n + 15 < 2 ^ 32)
    (answers : List (Option Nat)) : ¬ s.Safe base n answers := by
  rintro ⟨r, hsafe⟩
  obtain ⟨l, hg⟩ := hs.ready hbase
  obtain ⟨_, _, -, -, hpos⟩ := hsafe (max r (l.length + 1)) (Nat.le_max_left _ _)
  obtain ⟨z, hz, hneg⟩ := hg.asks_negative hbrk hn hlt answers
    (Nat.lt_of_lt_of_le (Nat.lt_succ_self _) (Nat.le_max_right r (l.length + 1)))
  have := hpos z hz
  omega

theorem Reached.not_safe_huge (hn : 2 ^ 32 ≤ n + 15) (hlt : n + 7 < 2 ^ 32) :
    ¬ s.Safe base n [some 8] := by
  rintro ⟨r, hsafe⟩
  obtain ⟨l, hg⟩ := hs.ready hbase
  obtain ⟨ptr, h, hret, hown, -⟩ := hsafe (max r (2 * l.length + 3)) (Nat.le_max_left _ _)
  have hbrk' : (s.heap.ready base).brk ≤ 2 ^ 31 := by
    rw [Heap.ready_brk]
    exact hbrk
  obtain ⟨h', hscan, hregions⟩ := hg.huge_block hbrk' (Nat.le_max_right r (2 * l.length + 3))
  rw [Heap.malloc_eq, show uint (n + HEADER - 1) / HEADER + 1 = 2 ^ 29 from by
    have := units_of_le hlt
    unfold units at this
    omega, hscan] at hret
  cases hret
  have hlast : (⟨(s.heap.ready base).brk + 16, n⟩ : Alloc).Owns
      ((s.heap.ready base).brk + 16 + n - 1) := by
    unfold Alloc.Owns
    dsimp only
    omega
  obtain ⟨⟨q, hq, -, hend⟩, -⟩ := hown (by omega) _ hlast
  rw [hregions] at hq
  rcases List.mem_append.mp hq with hq | hq
  · have := (hg.regions q hq).2
    omega
  · rw [List.mem_singleton.mp hq] at hend
    dsimp only at hend
    omega

theorem Reached.not_safe_wrap (hn : 2 ^ 32 ≤ n + 7) (hlt : n < 2 ^ 32) :
    ¬ s.Safe base n [some 0] := by
  rintro ⟨r, hsafe⟩
  obtain ⟨l, hg⟩ := hs.ready hbase
  obtain ⟨ptr, h, hret, hown, -⟩ := hsafe (max r (2 * l.length + 3)) (Nat.le_max_left _ _)
  have hbrk' : (s.heap.ready base).brk ≤ 2 ^ 31 := by
    rw [Heap.ready_brk]
    exact hbrk
  obtain ⟨ptr', h', l', hscan, hne, hg'⟩ :=
    hg.tiny_block hbrk' (Nat.le_max_right r (2 * l.length + 3))
  rw [Heap.malloc_eq, show uint (n + HEADER - 1) / HEADER + 1 = 1 from by
    unfold uint HEADER
    omega, hscan] at hret
  obtain ⟨rfl, rfl⟩ : ptr' = ptr ∧ h' = h := by simpa using hret
  -- the last of the bytes is above all memory
  have hok := hg'.ok _ List.mem_cons_self
  have hptr := hok.ptr_eq
  have habove := hok.above
  dsimp only at hptr
  have hlast : (⟨ptr', n⟩ : Alloc).Owns (ptr' + n - 1) := by
    unfold Alloc.Owns
    dsimp only
    omega
  have htop : 2 ^ 32 ≤ ptr' + n - 1 := by
    unfold HEADER at *
    omega
  rcases (hg'.covers _).mpr (hown hne _ hlast).1 with ⟨c, hc, hhas⟩ | ⟨y, hy, hhas⟩
  · have := hg'.list.bound c hc
    unfold Block.Has at hhas
    omega
  · have := (hg'.ok y hy).bound
    unfold Block.Has at hhas
    omega

end

end Calls

/-- After any run of `malloc`, `free` and writes in which every request was below
`2 ^ 31 - 15`, such a request is safe whatever `sbrk` answers. As the memory of a
process ends at `2 ^ 31`, these are all the requests that are. -/
theorem malloc_safe_iff {base rounds : Nat} {mem : Nat → Header} {acts : List Act} {s : State}
    (hbase : 0 < base) (hfits : ∀ a ∈ acts, a.Fits)
    (hrun : exec (step base rounds) (start base mem) acts = some s) (n : Nat) (hn : n < 2 ^ 32) :
    (n + 15 < 2 ^ 31 → ∀ answers, s.Safe base n answers) ∧
    (s.heap.brk ≤ 2 ^ 31 → ((∀ answers, s.Safe base n answers) ↔ n + 15 < 2 ^ 31)) := by
  have hs := Reached.of_run hbase hfits hrun
  refine ⟨fun hsmall answers => hs.safe hbase hsmall answers, fun hbrk => ?_⟩
  constructor
  · intro hall
    by_contra hlarge
    rcases Nat.lt_or_ge (n + 15) (2 ^ 32) with hlt | hge
    · exact hs.not_safe_negative hbase hbrk (Nat.not_lt.mp hlarge) hlt [] (hall [])
    · rcases Nat.lt_or_ge (n + 7) (2 ^ 32) with hlt | hge'
      · exact hs.not_safe_huge hbase hbrk hge hlt (hall [some 8])
      · exact hs.not_safe_wrap hbase hbrk hge' hn (hall [some 0])
  · intro hsmall answers
    exact hs.safe hbase hsmall answers

theorem malloc_safe_afterThree :
    ∃ s, exec (step 8192 5) (start 8192 fun _ => ⟨0, 0⟩) threeBlocks = some s ∧
      ∀ answers, s.Safe 8192 1000 answers := by
  have hrun : (exec (step 8192 5) (start 8192 fun _ => ⟨0, 0⟩) threeBlocks).isSome = true := by
    decide +kernel
  obtain ⟨s, hs⟩ := Option.isSome_iff_exists.mp hrun
  have hfits : ∀ a ∈ threeBlocks, a.Fits := by
    simp [threeBlocks, Act.Fits]
  exact ⟨s, hs, (malloc_safe_iff (by decide) hfits hs 1000 (by decide)).1 (by decide)⟩

/-- The first call asks for `2 ^ 32 - 1` bytes and gets a pointer to the end of the
`32768` bytes from `sbrk`. -/
theorem malloc_returns_too_little :
    ((start 8192 fun _ => ⟨0, 0⟩).heap.malloc 8192 5 (2 ^ 32 - 1) [some 0]).map
        (fun r => (r.1, r.2.regions)) = some (40968, [(8200, 40968)]) ∧
      ¬ (start 8192 fun _ => ⟨0, 0⟩).Safe 8192 (2 ^ 32 - 1) [some 0] := by
  refine ⟨by decide +kernel, ?_⟩
  have hs : Reached 8192 (start 8192 fun _ => ⟨0, 0⟩) := .fresh rfl rfl rfl rfl
  exact hs.not_safe_wrap (by decide) (by decide) (by decide) (by decide)

end Xv6.Umalloc
