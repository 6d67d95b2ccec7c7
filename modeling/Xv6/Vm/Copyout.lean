import Mathlib.Data.Nat.Bitwise
import Xv6.Vm.Kvm

/-!
`copyout`: bytes for a user address in a page directory that is not the current
one.
-/

namespace Xv6.Vm

open Prog

/-- `pte & PTE_U`. -/
def Reachable (pte : Nat) : Prop := pte &&& PTE_U ≠ 0

instance (pte : Nat) : Decidable (Reachable pte) := inferInstanceAs (Decidable (_ ≠ _))

/-- The entry is read without a look at the pointer to it. -/
def uva2ka (pgdir uva : Nat) : VmM Nat := do
  match ← walkpgdir pgdir uva false with
  | none => fail .nullPte
  | some (pgtab, i) =>
    let pte ← gets fun m => m.word pgtab i
    if ¬ Present pte then
      return 0
    else if ¬ Reachable pte then
      return 0
    else
      return P2V (PTE_ADDR pte)

/-- The loop of `copyout`: `len` bytes are left, and the first of them is
`p buf`. -/
def copyoutLoop (pgdir : Nat) (p : Nat → UInt8) : Nat → Nat → Nat → Nat → VmM Int
  | 0, _, _, _ => return 0
  | rounds + 1, va, buf, len =>
    if 0 < len then do
      let va0 := PGROUNDDOWN va
      let pa0 ← uva2ka pgdir va0
      if pa0 = 0 then
        return -1
      else
        let n := min (PGSIZE - (va - va0)) len
        modify fun m => m.setPage pa0 ((m.page pa0).splice (va - va0) n fun i => p (buf + i))
        copyoutLoop pgdir p rounds (uint (va0 + PGSIZE)) (buf + n) (len - n)
    else
      return 0

/-- Copy the bytes `p 0, …, p (len - 1)` to `va`. The rounds are enough for all
the pages that they can touch. -/
def copyout (pgdir va : Nat) (p : Nat → UInt8) (len : Nat) : VmM Int :=
  copyoutLoop pgdir p (len / PGSIZE + 2) va 0 len

/-! ### What the directory says of an address -/

namespace Mem

/-- The page that `uva2ka` finds for `va`. -/
def userPage (m : Mem) (d va : Nat) : Option Nat :=
  ((m.mapping d va).filter fun e => Reachable e).map pageOf

variable {m m' : Mem} {d x y e p : Nat}

theorem userPage_eq_some :
    m.userPage d x = some p ↔ ∃ e, m.mapping d x = some e ∧ Reachable e ∧ pageOf e = p := by
  unfold userPage
  rw [Option.map_eq_some_iff]
  simp only [Option.filter_eq_some_iff, decide_eq_true_eq, and_assoc]

theorem userPage_eq_none :
    m.userPage d x = none ↔ ∀ e, m.mapping d x = some e → ¬ Reachable e := by
  unfold userPage
  rw [Option.map_eq_none_iff, Option.filter_eq_none_iff]
  simp only [decide_eq_true_eq]

theorem mapping_of_page (h : PGROUNDDOWN x = PGROUNDDOWN y) : m.mapping d x = m.mapping d y := by
  unfold PGROUNDDOWN PGSIZE at h
  unfold mapping pte PDX PTX
  rw [show x / 2 ^ 22 = y / 2 ^ 22 by omega, show x / 2 ^ 12 = y / 2 ^ 12 by omega]

theorem userPage_of_page (h : PGROUNDDOWN x = PGROUNDDOWN y) : m.userPage d x = m.userPage d y := by
  unfold userPage
  rw [mapping_of_page h]

theorem mapping_round : m.mapping d (PGROUNDDOWN x) = m.mapping d x := by
  apply mapping_of_page
  unfold PGROUNDDOWN PGSIZE
  omega

theorem userPage_round : m.userPage d (PGROUNDDOWN x) = m.userPage d x := by
  unfold userPage
  rw [mapping_round]

theorem table_of_userPage (h : m.userPage d x = some p) : m.table d (PDX x) ≠ none := by
  obtain ⟨e, hmap, -⟩ := userPage_eq_some.mp h
  obtain ⟨t, ht, -⟩ := table_of_mapping hmap
  rw [ht]
  exact Option.some_ne_none t

/-- The pages that user code can reach are pages of their own: each is at one
address, and none of them is the directory or one of its tables. -/
structure Unaliased (m : Mem) (d : Nat) : Prop where
  inj : ∀ x y p, x % PGSIZE = 0 → y % PGSIZE = 0 → x < 2 ^ 32 → y < 2 ^ 32 →
    m.userPage d x = some p → m.userPage d y = some p → x = y
  separate : ∀ x p, x < 2 ^ 32 → m.userPage d x = some p → p ≠ 0 ∧ p ∉ d :: m.tables d

/-- So they are when they are all in the user half, whose pages the directory owns. -/
theorem unaliased_of_owned (hnodup : (m.owned d).Nodup) (hpages : ∀ q ∈ m.owned d, IsPage q)
    (huser : ∀ x p, x < 2 ^ 32 → m.userPage d x = some p → x < KERNBASE) : m.Unaliased d := by
  constructor
  · intro x y p hxa hya hx hy hsx hsy
    obtain ⟨e, hmx, -, hpx⟩ := userPage_eq_some.mp hsx
    obtain ⟨e', hmy, -, hpy⟩ := userPage_eq_some.mp hsy
    exact mapping_inj hnodup (huser x p hx hsx) (huser y p hy hsy) hxa hya hmx hmy
      (hpx.trans hpy.symm)
  · intro x p hx hsome
    obtain ⟨e, hmap, -, rfl⟩ := userPage_eq_some.mp hsome
    have hlt := huser x _ hx hsome
    have hpage := hpages _ (pageOf_mem_owned hlt hmap)
    refine ⟨Nat.pos_iff_ne_zero.mp hpage.2.1, fun hmem => ?_⟩
    exact tables_disjoint_userPages hnodup hmem (pageOf_mem_userPages hlt hmap)

end Mem

/-! ### The kernel half is out of reach -/

section KernelHalf

variable {img : Image} {st : Stock} {base m : Mem} {d x e : Nat} {free rest : List Nat} {s : Space}

theorem reachable_iff : Reachable e ↔ e.testBit 2 = true := by
  unfold Reachable PTE_U
  rw [show 0x004 = 2 ^ 2 from rfl, Nat.and_two_pow]
  cases e.testBit 2 <;> simp

theorem Kmap.not_reachable {k : Kmap} (hk : k.Ok) (hx : x % PGSIZE = 0) (h : k.entry x = some e) :
    ¬ Reachable e := by
  unfold Kmap.entry at h
  split at h
  · next hin =>
      obtain rfl := Option.some.inj h
      have haligned : (k.physStart + (x - k.virt)) % 8 = 0 := by
        have := hk.aligned
        have := hk.physAligned
        unfold PGSIZE at *
        omega
      have hphys : (k.physStart + (x - k.virt)).testBit 2 = false := by
        rw [Nat.testBit_eq_decide_div_mod_eq]
        exact decide_eq_false (by omega)
      have hperm : k.perm.testBit 2 = false := by
        rcases hk.perm with hperm | hperm <;> rw [hperm] <;> decide
      rw [reachable_iff, Nat.testBit_or, Nat.testBit_or, hphys, hperm]
      decide
  · cases h

theorem kernelMap_not_reachable {img : Image} (hx : x % PGSIZE = 0)
    (h : kernelMap (kmap img) x = some e) : ¬ Reachable e := by
  obtain ⟨k, hk, hentry⟩ := List.exists_of_findSome?_eq_some h
  exact Kmap.not_reachable (kmap_ok img k hk) hx hentry

/-- The kernel half is that of a new directory. -/
def Space.FreshKernel (img : Image) (s : Space) : Prop :=
  ∀ x, x % PGSIZE = 0 → s.kernel x = kernelMap (kmap img) x

theorem Shows.userPage_kernel (h : Shows st base m d free rest s) (hs : s.FreshKernel img)
    (hx : KERNBASE ≤ x) (hlt : x < 2 ^ 32) : m.userPage d x = none := by
  have haligned : PGROUNDDOWN x % PGSIZE = 0 := Nat.mul_mod_left _ _
  refine Mem.userPage_eq_none.mpr fun e he => ?_
  rw [← Mem.mapping_round, h.kernel _ ?_ ?_ haligned, hs _ haligned] at he
  · exact kernelMap_not_reachable haligned he
  · unfold PGROUNDDOWN PGSIZE
    unfold KERNBASE at *
    omega
  · unfold PGROUNDDOWN PGSIZE
    omega

theorem Shows.lt_of_userPage {q : Nat} (h : Shows st base m d free rest s) (hs : s.FreshKernel img)
    (hx : x < 2 ^ 32) (hsome : m.userPage d x = some q) : x < KERNBASE := by
  by_contra hge
  have hnone := h.userPage_kernel hs (Nat.not_lt.mp hge) hx
  rw [hsome] at hnone
  cases hnone

theorem Shows.unaliased (h : Shows st base m d free rest s) (hs : s.FreshKernel img) :
    m.Unaliased d := by
  refine Mem.unaliased_of_owned h.owned_nodup (fun q hq => ?_) fun x q hx hsome => ?_
  · exact h.isPage (List.mem_append_right _ (List.mem_append_right _ hq))
  · exact h.lt_of_userPage hs hx hsome

end KernelHalf

/-- The address of the byte `k` of those that begin at `va`. -/
def byteAddr (va k : Nat) : Nat := uint (va + k)

theorem byteAddr_lt (va k : Nat) : byteAddr va k < 2 ^ 32 := Nat.mod_lt _ (by decide)

variable {base m : Mem} {d va len : Nat} {p : Nat → UInt8}

/-- The first `k` bytes have been copied, and no other byte has changed. -/
structure Filled (base m : Mem) (d va : Nat) (p : Nat → UInt8) (k : Nat) : Prop where
  freelist : m.freelist = base.freelist
  copied : ∀ i < k, ∃ q, base.userPage d (byteAddr va i) = some q ∧
    (m.page q).byte (byteAddr va i % PGSIZE) = p i
  frame : ∀ q o, (∀ i < k, base.userPage d (byteAddr va i) = some q → byteAddr va i % PGSIZE ≠ o) →
    (m.page q).byte o = (base.page q).byte o

theorem Filled.refl : Filled base base d va p 0 :=
  ⟨rfl, fun _ hi => absurd hi (Nat.not_lt_zero _), fun _ _ _ => rfl⟩

variable {k i : Nat} {E : Panic → Mem → Prop}

/-- A page that is not reached is as it was. -/
theorem Filled.page_eq {q : Nat} (h : Filled base m d va p k)
    (hq : ∀ i < k, base.userPage d (byteAddr va i) ≠ some q) : m.page q = base.page q :=
  Bytes.ext_byte fun o _ => h.frame q o fun i hi hsome => absurd hsome (hq i hi)

theorem Filled.mapping_eq (h : Filled base m d va p k) (hd : base.Unaliased d) :
    (∀ i < NPDENTRIES, m.table d i = base.table d i) ∧ ∀ x, m.mapping d x = base.mapping d x := by
  have hpage : ∀ q ∈ d :: base.tables d, m.page q = base.page q := by
    intro q hq
    refine h.page_eq fun i _ hsome => ?_
    exact (hd.separate _ q (byteAddr_lt va i) hsome).2 hq
  exact ⟨fun i _ => Mem.table_congr (hpage d List.mem_cons_self) i, Mem.mapping_congr hpage⟩

theorem PGROUNDDOWN_add {a : Nat} (h : a % PGSIZE + i < PGSIZE) :
    PGROUNDDOWN (a + i) = PGROUNDDOWN a ∧ (a + i) % PGSIZE = a % PGSIZE + i := by
  unfold PGROUNDDOWN PGSIZE at *
  omega

theorem eq_of_page {x y : Nat} (hpage : PGROUNDDOWN x = PGROUNDDOWN y)
    (hoff : x % PGSIZE = y % PGSIZE) : x = y := by
  unfold PGROUNDDOWN PGSIZE at *
  omega

theorem byteAddr_add (h : byteAddr va k % PGSIZE + i < PGSIZE) :
    byteAddr va (k + i) = byteAddr va k + i := by
  unfold byteAddr uint PGSIZE at *
  omega

theorem byteAddr_inj {j : Nat} (hi : i < 2 ^ 32) (hj : j < 2 ^ 32)
    (h : byteAddr va i = byteAddr va j) : i = j := by
  unfold byteAddr uint at h
  omega

/-- One round: a piece of a page is copied. -/
theorem Filled.splice {n q : Nat} (h : Filled base m d va p k) (hd : base.Unaliased d)
    (hq : base.userPage d (byteAddr va k) = some q) (hn : byteAddr va k % PGSIZE + n ≤ PGSIZE)
    (hlen : k + n < 2 ^ 32) :
    Filled base (m.setPage q ((m.page q).splice (byteAddr va k % PGSIZE) n fun i => p (k + i)))
      d va p (k + n) := by
  have hrange : ∀ i < n, byteAddr va (k + i) = byteAddr va k + i ∧
      base.userPage d (byteAddr va (k + i)) = some q ∧
      byteAddr va (k + i) % PGSIZE = byteAddr va k % PGSIZE + i := by
    intro i hi
    have hin : byteAddr va k % PGSIZE + i < PGSIZE := by omega
    obtain ⟨hpage, hoff⟩ := PGROUNDDOWN_add hin
    rw [byteAddr_add hin]
    exact ⟨rfl, (Mem.userPage_of_page hpage).trans hq, hoff⟩
  -- an address that falls on the piece is one of its addresses
  have hpiece : ∀ i < 2 ^ 32, base.userPage d (byteAddr va i) = some q →
      byteAddr va k % PGSIZE ≤ byteAddr va i % PGSIZE →
      byteAddr va i % PGSIZE < byteAddr va k % PGSIZE + n → k ≤ i ∧ i < k + n := by
    intro i hi hsome hge hlt
    obtain ⟨j, hj⟩ := Nat.exists_eq_add_of_le hge
    obtain ⟨hadd, hpage, hoff⟩ := hrange j (by omega)
    have haligned : ∀ a, PGROUNDDOWN a % PGSIZE = 0 := fun a => Nat.mul_mod_left _ _
    have hbound : ∀ i, PGROUNDDOWN (byteAddr va i) < 2 ^ 32 := by
      intro i
      unfold PGROUNDDOWN byteAddr uint PGSIZE
      omega
    have hsame := hd.inj _ _ q (haligned _) (haligned _) (hbound i) (hbound (k + j))
      (Mem.userPage_round.trans hsome) (Mem.userPage_round.trans hpage)
    have heq : byteAddr va i = byteAddr va (k + j) := eq_of_page hsame (hj.trans hoff.symm)
    have hik := byteAddr_inj hi (by omega) heq
    omega
  refine ⟨h.freelist, ?_, ?_⟩
  · intro i hi
    by_cases hik : i < k
    · obtain ⟨q', hsome, hbyte⟩ := h.copied i hik
      refine ⟨q', hsome, ?_⟩
      by_cases hqq : q' = q
      · subst hqq
        rw [Mem.setPage_page, Bytes.byte_splice, if_neg, hbyte]
        rintro ⟨hge, hlt, -⟩
        have := hpiece i (by omega) hsome hge hlt
        omega
      · rw [m.setPage_page_of_ne _ hqq, hbyte]
    · obtain ⟨j, rfl⟩ := Nat.exists_eq_add_of_le (Nat.le_of_not_lt hik)
      obtain ⟨-, hsome, hoff⟩ := hrange j (by omega)
      refine ⟨q, hsome, ?_⟩
      rw [Mem.setPage_page, Bytes.byte_splice, if_pos (by omega), hoff]
      congr 2
      omega
  · intro q' o hother
    by_cases hqq : q' = q
    · subst hqq
      rw [Mem.setPage_page, Bytes.byte_splice, if_neg]
      · exact h.frame q' o fun i hi => hother i (by omega)
      · rintro ⟨hge, hlt, -⟩
        obtain ⟨j, rfl⟩ := Nat.exists_eq_add_of_le hge
        obtain ⟨-, hsome, hoff⟩ := hrange j (by omega)
        exact hother (k + j) (by omega) hsome hoff
    · rw [m.setPage_page_of_ne _ hqq]
      exact h.frame q' o fun i hi => hother i (by omega)

theorem wp_uva2ka {x : Nat} {Q : Nat → Mem → Prop} (hnull : m.table d (PDX x) = none → E .nullPte m)
    (hnone : m.table d (PDX x) ≠ none → m.userPage d x = none → Q 0 m)
    (hsome : ∀ q, m.userPage d x = some q → Q q m) : wp (uva2ka d x) Q E m := by
  unfold uva2ka
  rw [wp_bind]
  apply wp_walk
  cases ht : m.table d (PDX x) with
  | none => exact hnull ht
  | some t =>
    have htable : m.table d (PDX x) ≠ none := by
      rw [ht]
      exact Option.some_ne_none t
    have hpte : m.pte d x = some (m.word t (PTX x)) := Mem.pte_of_table ht
    have hword : ∀ e, m.mapping d x = some e → e = m.word t (PTX x) ∧ Present e := by
      intro e hmap
      obtain ⟨he, hpresent⟩ := Mem.mapping_eq_some.mp hmap
      exact ⟨Option.some.inj (he.symm.trans hpte), hpresent⟩
    rw [Option.map_some, wp_bind, wp_gets]
    apply wp_ite
    · intro habsent
      rw [wp_pure]
      refine hnone htable (Mem.userPage_eq_none.mpr fun e hmap => ?_)
      obtain ⟨rfl, hpresent⟩ := hword e hmap
      exact absurd hpresent habsent
    · intro hpresent
      have hmap := Mem.mapping_eq_some.mpr ⟨hpte, not_not.mp hpresent⟩
      apply wp_ite
      · intro hkernel
        rw [wp_pure]
        refine hnone htable (Mem.userPage_eq_none.mpr fun e hmap' => ?_)
        obtain ⟨rfl, -⟩ := hword e hmap'
        exact hkernel
      · intro huser
        rw [wp_pure]
        exact hsome _ (Mem.userPage_eq_some.mpr ⟨_, hmap, not_not.mp huser, rfl⟩)

/-- The loop copies the bytes before the first one that it cannot write, and
stops there: with -1, or at a null pointer where there is no page table. -/
theorem wp_copyoutLoop {Q : Int → Mem → Prop} (hd : base.Unaliased d) (hlen : len < 2 ^ 32)
    (hnull : ∀ j < len, (∀ i < j, base.userPage d (byteAddr va i) ≠ none) →
      base.table d (PDX (byteAddr va j)) = none → ∀ m', E .nullPte m')
    (hnone : ∀ j < len, (∀ i < j, base.userPage d (byteAddr va i) ≠ none) →
      base.table d (PDX (byteAddr va j)) ≠ none → base.userPage d (byteAddr va j) = none →
      ∀ m', Filled base m' d va p j → Q (-1) m')
    (hall : ∀ m', Filled base m' d va p len → Q 0 m') (rounds : Nat) :
    ∀ {k : Nat} {m : Mem}, k ≤ len → byteAddr va k % PGSIZE + (len - k) ≤ rounds * PGSIZE →
      Filled base m d va p k → wp (copyoutLoop d p rounds (byteAddr va k) k (len - k)) Q E m := by
  induction rounds with
  | zero =>
    intro k m hk hrounds hm
    obtain rfl : k = len := by omega
    exact hall m hm
  | succ rounds ih =>
    intro k m hk hrounds hm
    rw [copyoutLoop]
    apply wp_ite
    · intro hleft
      have hbefore : ∀ i < k, base.userPage d (byteAddr va i) ≠ none := by
        intro i hi
        obtain ⟨q, hq, -⟩ := hm.copied i hi
        rw [hq]
        exact Option.some_ne_none q
      obtain ⟨htable, hmap⟩ := hm.mapping_eq hd
      have hpdx : PDX (PGROUNDDOWN (byteAddr va k)) = PDX (byteAddr va k) := by
        unfold PDX PGROUNDDOWN PGSIZE NPDENTRIES
        omega
      have hpage : m.userPage d (PGROUNDDOWN (byteAddr va k)) =
          base.userPage d (byteAddr va k) := by
        rw [Mem.userPage_round]
        unfold Mem.userPage
        rw [hmap]
      rw [wp_bind]
      apply wp_uva2ka
      · rw [hpdx, htable _ (PDX_lt _)]
        intro hnotable
        exact hnull k (by omega) hbefore hnotable m
      · rw [hpdx, htable _ (PDX_lt _), hpage, if_pos rfl, wp_pure]
        intro ht hnopage
        exact hnone k (by omega) hbefore ht hnopage m hm
      · intro q hq
        rw [hpage] at hq
        have hoff : byteAddr va k - PGROUNDDOWN (byteAddr va k) = byteAddr va k % PGSIZE := by
          unfold PGROUNDDOWN PGSIZE
          omega
        have hin : byteAddr va k % PGSIZE < PGSIZE := Nat.mod_lt _ (by decide)
        rw [if_neg (hd.separate _ q (byteAddr_lt va k) hq).1, hoff, wp_bind, wp_modify]
        obtain ⟨n, hn⟩ : ∃ n, n = min (PGSIZE - byteAddr va k % PGSIZE) (len - k) := ⟨_, rfl⟩
        rw [← hn]
        have hfilled := hm.splice hd hq (n := n) (by omega) (by omega)
        have hrest : len - k - n = len - (k + n) := by omega
        rw [hrest]
        by_cases hlast : k + n = len
        · -- nothing is left, wherever the address goes
          rw [hlast] at hfilled ⊢
          rw [Nat.sub_self]
          cases rounds with
          | zero => exact hall _ hfilled
          | succ rounds =>
            rw [copyoutLoop, if_neg (Nat.lt_irrefl 0), wp_pure]
            exact hall _ hfilled
        · have hnext : uint (PGROUNDDOWN (byteAddr va k) + PGSIZE) = byteAddr va (k + n) := by
            have hn' : n = PGSIZE - byteAddr va k % PGSIZE := by omega
            rw [hn']
            unfold PGROUNDDOWN byteAddr uint PGSIZE
            omega
          have hstart : byteAddr va (k + n) % PGSIZE = 0 := by
            rw [← hnext]
            unfold PGROUNDDOWN uint PGSIZE
            omega
          rw [hnext]
          refine ih (by omega) ?_ hfilled
          rw [hstart]
          rw [Nat.succ_mul] at hrounds
          omega
    · intro hdone
      obtain rfl : k = len := by omega
      rw [wp_pure]
      exact hall m hm

/-- What `copyout` should do: come back, having written nothing but those of the
bytes that lie in reachable pages, with 0 and all the bytes copied or with -1
because a page is not reachable. -/
def CopiesOut (m : Mem) (d va : Nat) (p : Nat → UInt8) (len : Nat) : Prop :=
  ∃ v m', copyout d va p len m = (.ok v, m') ∧
    (∀ q o, (∀ i < len, m.userPage d (byteAddr va i) = some q → byteAddr va i % PGSIZE ≠ o) →
      (m'.page q).byte o = (m.page q).byte o) ∧
    (v = 0 ∧ (∀ i < len, ∃ q, m.userPage d (byteAddr va i) = some q ∧
        (m'.page q).byte (byteAddr va i % PGSIZE) = p i) ∨
      v = -1 ∧ ∃ i < len, m.userPage d (byteAddr va i) = none)

/-- There is a page table for the first address that is not reachable, if there is
such an address. -/
def Guarded (m : Mem) (d va len : Nat) : Prop :=
  ∀ k < len, (∀ i < k, m.userPage d (byteAddr va i) ≠ none) →
    m.table d (PDX (byteAddr va k)) ≠ none

theorem wp_copyout {Q : Int → Mem → Prop} (hd : m.Unaliased d) (hva : va < 2 ^ 32)
    (hlen : len < 2 ^ 32)
    (hnull : ∀ j < len, (∀ i < j, m.userPage d (byteAddr va i) ≠ none) →
      m.table d (PDX (byteAddr va j)) = none → ∀ m', E .nullPte m')
    (hnone : ∀ j < len, (∀ i < j, m.userPage d (byteAddr va i) ≠ none) →
      m.table d (PDX (byteAddr va j)) ≠ none → m.userPage d (byteAddr va j) = none →
      ∀ m', Filled m m' d va p j → Q (-1) m')
    (hall : ∀ m', Filled m m' d va p len → Q 0 m') : wp (copyout d va p len) Q E m := by
  have hstart : byteAddr va 0 = va := Nat.mod_eq_of_lt hva
  have hloop := wp_copyoutLoop hd hlen hnull hnone hall (len / PGSIZE + 2) (Nat.zero_le len) (by
    have := Nat.mod_lt (byteAddr va 0) (show 0 < PGSIZE by decide)
    have := Nat.lt_div_mul_add (show 0 < PGSIZE by decide) (a := len)
    rw [Nat.add_mul]
    omega) Filled.refl
  rw [hstart] at hloop
  exact hloop

/-- `copyout` is safe exactly where the first address that it cannot write has a
page table: the pointer that `walkpgdir` returns is not looked at before the
entry is read. -/
theorem copyout_safe_iff (hd : m.Unaliased d) (hva : va < 2 ^ 32) (hlen : len < 2 ^ 32) :
    CopiesOut m d va p len ↔ Guarded m d va len := by
  constructor
  · rintro ⟨v, m', hrun, -, hcases⟩ k hk hbefore hnotable
    have hunmapped : m.userPage d (byteAddr va k) = none := by
      cases hq : m.userPage d (byteAddr va k) with
      | none => rfl
      | some q => exact absurd hnotable (Mem.table_of_userPage hq)
    have hspec : wp (copyout d va p len) (fun _ _ => False) (fun _ _ => True) m := by
      apply wp_copyout hd hva hlen
      · intros
        trivial
      · intro j hj hbefore' htable hnone m'' _
        rcases Nat.lt_trichotomy j k with hjk | rfl | hjk
        · exact hbefore j hjk hnone
        · exact htable hnotable
        · exact hbefore' k hjk hunmapped
      · intro m'' hfilled
        obtain ⟨q, hq, -⟩ := hfilled.copied k hk
        rw [hunmapped] at hq
        cases hq
    exact of_wp_ok hspec hrun
  · intro hguarded
    refine exists_of_wp (wp_copyout hd hva hlen ?_ ?_ ?_)
    · intro j hj hbefore hnotable
      exact absurd hnotable (hguarded j hj hbefore)
    · intro j hj hbefore _ hnone m' hfilled
      refine ⟨fun q o hother => hfilled.frame q o fun i hi => hother i (hi.trans hj), ?_⟩
      exact Or.inr ⟨rfl, j, hj, hnone⟩
    · intro m' hfilled
      exact ⟨hfilled.frame, Or.inl ⟨rfl, hfilled.copied⟩⟩

/-- Without a page table for the first byte there is no way back. -/
theorem not_copiesOut (hlen : 0 < len) (hnone : m.table d (PDX (PGROUNDDOWN va)) = none) :
    ¬ CopiesOut m d va p len := by
  rintro ⟨v, m', hrun, -⟩
  have hspec : wp (copyout d va p len) (fun _ _ => False) (fun _ _ => True) m := by
    unfold copyout
    rw [copyoutLoop, if_pos hlen, wp_bind]
    apply wp_uva2ka
    · intro _
      trivial
    · intro htable
      exact absurd hnone htable
    · intro q hq
      exact absurd hnone (Mem.table_of_userPage hq)
  exact of_wp_ok hspec hrun

/-- Three pages at the bottom of a new directory, as `exec` leaves them for a
program of one page. -/
theorem wideMachine_grown : ∃ d m₁ m, setupkvm smallImage wideMachine = (.ok d, m₁) ∧
    allocuvm smallImage d 0 12288 m₁ = (.ok 12288, m) ∧ m.Unaliased d ∧
    m.table d (PDX 8192) ≠ none ∧ m.table d (PDX 0xFC000000) = none := by
  obtain ⟨st, husable, hpool⟩ := wideMachine_sound.pool
  have hE : KfreeStops smallImage st fun _ _ => False := kfreeStops_of_usable husable
  have hpages : pages (PGROUNDUP 0) 12288 = [0, 4096, 8192] := by decide +kernel
  have hsetup : wp (setupkvm smallImage)
      (fun d m₁ => wp (allocuvm smallImage d 0 12288)
        (fun r m => r = 12288 ∧ m.Unaliased d ∧ m.table d (PDX 8192) ≠ none ∧
          m.table d (PDX 0xFC000000) = none) (fun _ _ => False) m₁)
      (fun _ _ => False) wideMachine := by
    apply hpool.wp_setupkvm hE
    · intro _ _ hshort
      exact absurd hshort (by rw [wideFree_length]; decide)
    · intro d m₁ free₁ s₁ _ hlength hnew hm₁
      rw [wideFree_length, wideCount, kernelPages] at hlength
      have hneed : s₁.need [0, 4096, 8192] ≤ 6 := by
        unfold Space.need Space.need Space.need Space.need Space.missing
        split <;> split <;> split <;> omega
      apply hm₁.wp_allocuvm hE
      · exact fun hbig => absurd hbig (by decide)
      · exact fun _ hless => absurd hless (by decide)
      · rintro ⟨x, -, hx⟩
        rw [hnew.user] at hx
        exact absurd rfl hx
      · intro m s _ _ _ hgrown hm
        rw [hpages] at hgrown
        have hfresh : s.FreshKernel smallImage := fun x hx =>
          (congrFun hgrown.kernel x).trans (hnew.kernel x hx)
        refine ⟨rfl, hm.unaliased hfresh, ?_, ?_⟩
        · obtain ⟨p, -, hp⟩ := hgrown.new 8192 (by decide)
          obtain ⟨hmap, -⟩ := hm.mapping_of_user (by decide) (by decide) hp
          obtain ⟨t, ht, -⟩ := Mem.table_of_mapping hmap
          rw [ht]
          exact Option.some_ne_none t
        · rw [hm.table_eq_none, hgrown.table _ (by decide)]
          exact Bool.eq_false_iff.mpr fun ht => absurd (hnew.table _ ht) (by decide)
      · intro _ _ _ _ _ hshort
        rw [hpages] at hshort
        omega
  obtain ⟨d, m₁, hrun, hgrow⟩ := exists_of_wp hsetup
  obtain ⟨_, m, hrun', rfl, hgrown⟩ := exists_of_wp hgrow
  exact ⟨d, m₁, m, hrun, hrun', hgrown⟩

theorem copyout_safe_wideMachine : ∃ d m₁ m, setupkvm smallImage wideMachine = (.ok d, m₁) ∧
    allocuvm smallImage d 0 12288 m₁ = (.ok 12288, m) ∧ CopiesOut m d 12280 (fun _ => 97) 8 := by
  obtain ⟨d, m₁, m, hsetup, hrun, hd, htable, -⟩ := wideMachine_grown
  refine ⟨d, m₁, m, hsetup, hrun, (copyout_safe_iff hd (by decide) (by decide)).mpr
    fun k hk _ => ?_⟩
  have hpdx : PDX (byteAddr 12280 k) = PDX 8192 := by
    unfold byteAddr uint PDX NPDENTRIES
    omega
  rw [hpdx]
  exact htable

/-- An argument of 2²⁶ bytes takes the stack pointer from the end of those pages
to an address for which there is no page table. -/
theorem copyout_null_for_long_argument : ∃ d m₁ m,
    setupkvm smallImage wideMachine = (.ok d, m₁) ∧
    allocuvm smallImage d 0 12288 m₁ = (.ok 12288, m) ∧ m.Unaliased d ∧
    ¬ CopiesOut m d (uint (12288 + (2 ^ 32 - (2 ^ 26 + 1))) / 4 * 4) (fun _ => 97)
      (2 ^ 26 + 1) := by
  obtain ⟨d, m₁, m, hsetup, hrun, hd, -, hnone⟩ := wideMachine_grown
  refine ⟨d, m₁, m, hsetup, hrun, hd, not_copiesOut (by decide) ?_⟩
  have hpdx : PDX (PGROUNDDOWN (uint (12288 + (2 ^ 32 - (2 ^ 26 + 1))) / 4 * 4)) =
      PDX 0xFC000000 := by
    decide
  rw [hpdx]
  exact hnone

end Xv6.Vm
