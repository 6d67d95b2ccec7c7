import Xv6.Vm.Uvm

/-!
Page directories from `setupkvm` to `freevm`. A new directory maps the kernel
half as `kmap` says and no user page, and a directory that is freed gives back
all its pages.
-/

namespace Xv6.Vm

open Prog

variable {img : Image} {st : Stock} {base m : Mem} {d v a : Nat} {free rest : List Nat} {s : Space}
  {E : Panic → Mem → Prop}

namespace Pool

theorem wp_kalloc {Q : Nat → Mem → Prop} (h : Pool st base m free rest) (hnone : free = [] → Q 0 m)
    (hsome : ∀ r free', free = r :: free' → r ≠ 0 → Q r { m with freelist := m.next r }) :
    wp kalloc Q E m :=
  Vm.wp_kalloc h.list (fun _ hp => h.isPage (List.mem_append_left _ hp)) hnone hsome

theorem wp_kfree {Q : Unit → Mem → Prop} (h : Pool st base m free (v :: rest))
    (hE : KfreeStops img st E) (hQ : Pool st base (m.freed v) (v :: free) rest → Q () (m.freed v)) :
    wp (kfree img v) Q E m := by
  have hv : v ∈ free ++ v :: rest := List.mem_append_right _ List.mem_cons_self
  exact Vm.wp_kfree (h.isPage hv) (hE v (h.all.subset hv)) (hQ h.give)

end Pool

theorem Pool.free_perm {m' : Mem} {free' : List Nat} (h : Pool st base m free rest)
    (h' : Pool st base m' free' rest) : free'.Perm free :=
  (List.perm_append_right_iff rest).mp (h'.all.trans h.all.symm)

theorem Pool.self (h : Pool st base m free rest) : Pool st m m free rest :=
  h.rebase fun p hp => (h.kept p hp).symm

theorem Sound.pool (h : Sound img m d free rest) :
    ∃ st : Stock, (∀ v ∈ st.pages, img.Usable v) ∧ Pool st m m free (rest ++ m.owned d) :=
  ⟨⟨free ++ (rest ++ m.owned d), h.nodup, fun v hv => (h.usable v hv).1⟩,
    fun v hv => (h.usable v hv).2, h.list, List.Perm.refl _, fun _ _ => rfl⟩

/-! ### Freeing a directory -/

theorem Mem.userPages_eq_nil (h : ∀ x < KERNBASE, x % PGSIZE = 0 → m.mapping d x = none) :
    m.userPages d = [] := by
  refine List.flatMap_eq_nil_iff.mpr fun i hi => List.flatMap_eq_nil_iff.mpr fun j hj => ?_
  rw [List.mem_range, PDX_KERNBASE] at hi
  rw [List.mem_range] at hj
  unfold NPTENTRIES at hj
  have hx := h (i * 2 ^ 22 + j * 2 ^ 12) (by unfold KERNBASE; omega) (by unfold PGSIZE; omega)
  have hpdx : PDX (i * 2 ^ 22 + j * 2 ^ 12) = i := by
    unfold PDX NPDENTRIES
    omega
  have hptx : PTX (i * 2 ^ 22 + j * 2 ^ 12) = j := by
    unfold PTX NPTENTRIES
    omega
  have hleaf := Mem.leaf_eq_mapping (m := m) (d := d) (x := i * 2 ^ 22 + j * 2 ^ 12)
  rw [hpdx, hptx, hx, Option.map_none] at hleaf
  rw [hleaf, Option.toList_none]

/-- One page table is freed; the tables not yet freed are the caller's. -/
theorem Pool.wp_freevmTable {i : Nat} {l : List Nat} {Q : Unit → Mem → Prop}
    (h : Pool st base m free (d :: (((i :: l).flatMap fun i => (base.table d i).toList) ++ rest)))
    (hE : KfreeStops img st E)
    (hQ : ∀ m' free', Pool st base m' free'
      (d :: ((l.flatMap fun i => (base.table d i).toList) ++ rest)) → Q () m') :
    wp (freevmTable img d i) Q E m := by
  have hpage : m.page d = base.page d := h.kept d List.mem_cons_self
  have htable : m.table d i = base.table d i := Mem.table_congr hpage i
  rw [List.flatMap_cons] at h
  unfold freevmTable
  rw [wp_bind, wp_gets, wp_when]
  constructor
  · intro hpresent
    have ht : base.table d i = some (P2V (PTE_ADDR (m.word d i))) := htable ▸ if_pos hpresent
    rw [ht, Option.toList_some, List.append_assoc, List.singleton_append] at h
    exact (h.perm (List.Perm.swap ..)).wp_kfree hE fun hgiven => hQ _ _ hgiven
  · intro habsent
    have ht : base.table d i = none := htable ▸ if_neg habsent
    rw [ht, Option.toList_none, List.nil_append] at h
    exact hQ _ _ h

theorem Shows.wp_freevm {Q : Unit → Mem → Prop} (h : Shows st base m d free rest s)
    (hE : KfreeStops img st E) (hQ : ∀ m' free', Pool st base m' free' rest → Q () m') :
    wp (freevm img d) Q E m := by
  have hdir : IsPage d :=
    h.isPage (List.mem_append_right _ (List.mem_append_right _ List.mem_cons_self))
  -- the list is named, so that the loop over it is not unrolled
  obtain ⟨entries, hentries⟩ : ∃ entries, entries = List.range NPDENTRIES := ⟨_, rfl⟩
  unfold freevm
  rw [← hentries, wp_bind, wp_panicIf]
  refine ⟨fun hzero => absurd hzero (Nat.ne_of_gt hdir.2.1), fun _ => ?_⟩
  rw [wp_bind]
  refine h.wp_deallocuvm (Nat.le_refl _) hE ?_ ?_
  · intro hle
    exact absurd hle (by decide)
  intro m₁ _ hm₁
  rw [PGROUNDUP_zero] at hm₁
  have huser : m₁.userPages d = [] := by
    refine Mem.userPages_eq_nil fun x hx haligned => (hm₁.mapping_eq_none hx haligned).mpr ?_
    exact (s.cleared_unmap _).new x ((mem_pages (Nat.zero_mod _)).mpr ⟨haligned, Nat.zero_le _, hx⟩)
  generalize (s.pagesAt (pages 0 KERNBASE)).reverse ++ free = free₁ at hm₁
  have hpool : Pool st m₁ m₁ free₁ (d :: (m₁.tables d ++ rest)) := by
    refine ⟨hm₁.list, List.Perm.trans (List.Perm.append_left _ ?_) hm₁.all, fun _ _ => rfl⟩
    rw [Mem.owned, huser, List.append_nil, ← List.cons_append]
    exact List.perm_append_comm
  unfold Mem.tables at hpool
  rw [← hentries] at hpool
  rw [wp_bind]
  refine wp_forEach entries (fun l m' => ∃ free', Pool st m₁ m' free'
    (d :: ((l.flatMap fun i => (m₁.table d i).toList) ++ rest))) ⟨_, hpool⟩ ?_ ?_
  · rintro i l m₂ ⟨free₂, hm₂⟩
    exact hm₂.wp_freevmTable hE fun m' free' hm' => ⟨free', hm'⟩
  · rintro m₂ ⟨free₂, hm₂⟩
    exact hm₂.wp_kfree hE fun hgiven => hQ _ _ (hgiven.rebase hm₁.kept)

/-! ### The kernel half -/

def Space.empty : Space := ⟨fun _ => false, fun _ => none, fun _ => none⟩

/-- The directory entries that the kernel half uses: for physical memory, and for
the devices. -/
def kernelTable (i : Nat) : Bool := decide (512 ≤ i ∧ i < 568 ∨ 1016 ≤ i ∧ i < 1024)

/-- A space without user pages and with tables for the kernel half only. -/
structure Space.Bare (s : Space) : Prop where
  user : s.user = fun _ => none
  table : ∀ i, s.table i = true → kernelTable i = true

theorem Space.Bare.setKernel (h : s.Bare) (ha : kernelTable (PDX a) = true) (e : Nat) :
    ((s.addTable (PDX a)).setKernel a e).Bare where
  user := h.user
  table := by
    intro i hi
    by_cases hia : i = PDX a
    · rw [hia, ha]
    · exact h.table i ((set_of_ne _ _ hia).symm.trans hi)

/-- A table of the kernel half is missing. -/
def Space.Lacks (s : Space) : Prop := ∃ i, kernelTable i = true ∧ s.table i = false

/-- A cleared page is a directory that maps nothing. -/
theorem Pool.adopt (h : Pool st base m free (d :: rest)) (hzero : m.page d = Bytes.zero) :
    Shows st base m d free rest Space.empty := by
  refine ⟨h.list, ?_, fun p hp => h.kept p (List.mem_cons_of_mem _ hp), ?_, ?_, ?_⟩
  · rw [Mem.owned_of_zero hzero]
    exact (List.Perm.append_left free List.perm_append_comm).trans h.all
  · intro i _
    rw [Mem.table_of_zero hzero]
    rfl
  · intro x _ _
    exact Mem.user_eq_none.mpr (Mem.mapping_of_zero hzero x)
  · intro x _ _ _
    exact Mem.mapping_of_zero hzero x

/-- Mapping pages of the kernel half, whose tables are the only pages it takes. -/
theorem Shows.wp_mappagesLoop {last perm : Nat} (hlast : last % PGSIZE = 0) (hlt : last < 2 ^ 32)
    (hperm : perm < PGSIZE) (n : Nat) :
    ∀ {a pa : Nat} {m : Mem} {free : List Nat} {s : Space} {Q : Bool → Mem → Prop},
      Shows st base m d free rest s → s.Bare → a % PGSIZE = 0 → KERNBASE ≤ a → a ≤ last →
      last < a + n * PGSIZE → pa + (last - a) < 2 ^ 32 →
      (∀ x ∈ pages a (last + 1), kernelTable (PDX x) = true) →
      ((∃ x ∈ pages a (last + 1), s.kernel x ≠ none) → ∀ m, E .remap m) →
      (∀ m' s', s'.Bare → s'.Lacks → Shows st base m' d [] rest s' → Q false m') →
      (∀ m' free' s', s'.Bare → (∀ x, s'.kernel x =
          if x ∈ pages a (last + 1) then some ((pa + (x - a)) ||| perm ||| PTE_P) else s.kernel x) →
        Shows st base m' d free' rest s' → Q true m') →
      wp (mappagesLoop d last perm n a pa) Q E m := by
  induction n with
  | zero =>
    intro a pa m free s Q _ _ _ _ hle hrounds
    omega
  | succ n ih =>
    intro a pa m free s Q h hbare haligned hkernel hle hrounds hpa htables hremap hfail hok
    have hstep : (n + 1) * PGSIZE = n * PGSIZE + PGSIZE := by ring
    have ha : a < 2 ^ 32 := by omega
    rw [pages_of_lt (by omega)] at htables hremap hok
    have hpdx := htables a List.mem_cons_self
    rw [mappagesLoop, wp_bind]
    apply h.wp_walkpgdir
    · intro hempty hmissing
      exact hfail m s hbare ⟨PDX a, hpdx, hmissing⟩ (hempty ▸ h)
    · intro t m₁ _ ht hm₁
      simp only [wp_bind, wp_gets, wp_panicIf, wp_modify]
      constructor
      · intro hpresent
        refine hremap ⟨a, List.mem_cons_self, ?_⟩ m₁
        have hmap : m₁.mapping d a = some (m₁.word t (PTX a)) :=
          Mem.mapping_eq_some.mpr ⟨Mem.pte_of_table ht, hpresent⟩
        have hkern := hm₁.kernel a hkernel ha haligned
        rw [hmap] at hkern
        exact fun hnone => nomatch hkern.trans hnone
      · intro _
        obtain ⟨e, he⟩ : ∃ e, e = pa ||| perm ||| PTE_P := ⟨_, rfl⟩
        rw [← he]
        have helt : e < 2 ^ 32 := by
          rw [he]
          exact Nat.or_lt_two_pow (Nat.or_lt_two_pow (by omega) (lt_trans hperm (by decide)))
            (by decide)
        have hpresent : Present e := by
          rw [he]
          exact present_or_right _ (by decide)
        have hmapped := hm₁.setPteKernel hkernel ha haligned ht helt hpresent
        obtain ⟨s₁, hs₁⟩ : ∃ s₁, s₁ = (s.addTable (PDX a)).setKernel a e := ⟨_, rfl⟩
        rw [← hs₁] at hmapped
        have hself : s₁.kernel a = some e := by rw [hs₁, Space.setKernel_self]
        have hother : ∀ x ≠ a, s₁.kernel x = s.kernel x := by
          intro x hx
          rw [hs₁, Space.setKernel_of_ne _ _ hx]
          rfl
        have hbare₁ : s₁.Bare := hs₁ ▸ hbare.setKernel hpdx e
        have haligned' : (a + PGSIZE) % PGSIZE = 0 := by rw [Nat.add_mod_right, haligned]
        apply wp_ite
        · intro heq
          refine hok _ _ _ hbare₁ (fun x => ?_) hmapped
          rw [← heq, pages_of_le (by unfold PGSIZE; omega)]
          by_cases hx : x = a
          · rw [if_pos (hx ▸ List.mem_cons_self), hx, hself, he, Nat.sub_self, Nat.add_zero]
          · rw [if_neg (fun hmem => hx (List.mem_singleton.mp hmem)), hother x hx]
        · intro hne
          have hnext : a + PGSIZE ≤ last := by
            unfold PGSIZE at *
            omega
          have huint : uint (a + PGSIZE) = a + PGSIZE ∧ uint (pa + PGSIZE) = pa + PGSIZE := by
            unfold uint
            omega
          rw [huint.1, huint.2]
          refine ih hmapped hbare₁ haligned' (by omega) hnext (by omega) (by omega)
            (fun x hx => htables x (List.mem_cons_of_mem _ hx)) ?_ hfail ?_
          · rintro ⟨x, hx, hmap⟩
            have hx' := (mem_pages haligned').mp hx
            have hxa : x ≠ a := by
              have : 0 < PGSIZE := by decide
              omega
            refine hremap ⟨x, List.mem_cons_of_mem _ hx, ?_⟩
            rwa [hother x hxa] at hmap
          · intro m' free' s' hbare' hkern hm'
            refine hok m' free' s' hbare' (fun x => ?_) hm'
            rw [hkern x]
            by_cases hx : x ∈ pages (a + PGSIZE) (last + 1)
            · obtain ⟨-, hxa, -⟩ := (mem_pages haligned').mp hx
              have hoff : pa + PGSIZE + (x - (a + PGSIZE)) = pa + (x - a) := by omega
              rw [if_pos hx, if_pos (List.mem_cons_of_mem _ hx), hoff]
            · rw [if_neg hx]
              by_cases hxa : x = a
              · rw [if_pos (hxa ▸ List.mem_cons_self), hxa, hself, he, Nat.sub_self, Nat.add_zero]
              · rw [if_neg (fun hmem => (List.mem_cons.mp hmem).elim hxa hx), hother x hxa]

/-- What a row of `kmap` puts at a page address. -/
def Kmap.entry (k : Kmap) (x : Nat) : Option Nat :=
  if k.virt ≤ x ∧ x < k.virt + k.size then
    some ((k.physStart + (x - k.virt)) ||| k.perm ||| PTE_P)
  else none

/-- The kernel half that `kmap` describes. -/
def kernelMap (ks : List Kmap) (x : Nat) : Option Nat := ks.findSome? fun k => k.entry x

/-- The rows of `kmap` lie in the kernel half, and none is empty. -/
structure Kmap.Ok (k : Kmap) : Prop where
  aligned : k.virt % PGSIZE = 0
  kernel : KERNBASE ≤ k.virt
  nonempty : 0 < k.size
  stop : k.virt + k.size ≤ 2 ^ 32
  phys : k.physStart + k.size ≤ 2 ^ 32
  physAligned : k.physStart % PGSIZE = 0
  perm : k.perm = 0 ∨ k.perm = PTE_W

theorem Kmap.ok_of_size {virt start stop perm : Nat} (size : Nat)
    (hsize : uint (stop + (2 ^ 32 - start)) = size)
    (haligned : virt % PGSIZE = 0) (hkernel : KERNBASE ≤ virt) (hpos : 0 < size)
    (hend : virt + size ≤ 2 ^ 32) (hphys : start + size ≤ 2 ^ 32) (hstart : start % PGSIZE = 0)
    (hperm : perm = 0 ∨ perm = PTE_W) : Kmap.Ok ⟨virt, start, stop, perm⟩ := by
  have hk : Kmap.size ⟨virt, start, stop, perm⟩ = size := hsize
  exact ⟨haligned, hkernel, hk ▸ hpos, hk ▸ hend, hk ▸ hphys, hstart, hperm⟩

/-- The sizes of the rows, and where they begin. -/
theorem kmap_eq (img : Image) : ∃ text data : Kmap, kmap img =
    [⟨KERNBASE, 0, EXTMEM, PTE_W⟩, text, data, ⟨DEVSPACE, DEVSPACE, 0, PTE_W⟩] ∧
    (text.virt = KERNLINK ∧ text.virt + text.size = img.data ∧ text.Ok) ∧
    (data.virt = img.data ∧ data.virt + data.size = KERNBASE + PHYSTOP ∧ data.Ok) := by
  have htext := img.text
  have hfits := img.fits
  have haligned := img.data_aligned
  have hdata : V2P img.data = img.data - KERNBASE := by
    unfold V2P uint
    unfold KERNLINK at htext
    unfold KERNBASE EXTMEM PHYSTOP at *
    omega
  have hlink : V2P KERNLINK = EXTMEM := by
    unfold V2P uint KERNLINK KERNBASE EXTMEM
    norm_num
  have htextSize : uint (img.data - KERNBASE + (2 ^ 32 - EXTMEM)) = img.data - KERNLINK := by
    unfold uint KERNLINK
    unfold KERNLINK at htext
    unfold KERNBASE EXTMEM PHYSTOP at *
    omega
  have hdataSize : uint (PHYSTOP + (2 ^ 32 - (img.data - KERNBASE))) =
      KERNBASE + PHYSTOP - img.data := by
    unfold uint
    unfold KERNLINK at htext
    unfold KERNBASE EXTMEM PHYSTOP at *
    omega
  have hkernel : KERNBASE ≤ img.data := by
    unfold KERNLINK at htext
    omega
  refine ⟨⟨KERNLINK, EXTMEM, img.data - KERNBASE, 0⟩,
    ⟨img.data, img.data - KERNBASE, PHYSTOP, PTE_W⟩,
    ?_, ⟨rfl, ?_, ?_⟩, ⟨rfl, ?_, ?_⟩⟩
  · rw [kmap, hdata, hlink]
  · change KERNLINK + uint _ = _
    rw [htextSize]
    omega
  · refine Kmap.ok_of_size _ htextSize (by decide) (by decide) (by omega) ?_ ?_ (by decide)
      (Or.inl rfl)
    all_goals
      unfold KERNLINK at *
      unfold KERNBASE EXTMEM PHYSTOP at *
      omega
  · change img.data + uint _ = _
    rw [hdataSize]
    omega
  · refine Kmap.ok_of_size _ hdataSize haligned hkernel (by omega) ?_ ?_ ?_ (Or.inr rfl)
    all_goals
      unfold PGSIZE at *
      unfold KERNBASE EXTMEM PHYSTOP at *
      omega

theorem kmap_io_size : Kmap.size ⟨KERNBASE, 0, EXTMEM, PTE_W⟩ = EXTMEM := by decide

theorem kmap_devices_size :
    Kmap.size ⟨DEVSPACE, DEVSPACE, 0, PTE_W⟩ = 2 ^ 32 - DEVSPACE := by decide

theorem kmap_ok (img : Image) : ∀ k ∈ kmap img, k.Ok := by
  obtain ⟨text, data, heq, htext, hdata⟩ := kmap_eq img
  rw [heq]
  simp only [List.forall_mem_cons, List.not_mem_nil, false_implies, implies_true, and_true]
  refine ⟨?_, htext.2.2, hdata.2.2, ?_⟩
  · exact Kmap.ok_of_size EXTMEM (by decide) (by decide) (Nat.le_refl _) (by decide)
      (by decide) (by decide) (by decide) (Or.inr rfl)
  · exact Kmap.ok_of_size (2 ^ 32 - DEVSPACE) (by decide) (by decide) (by decide) (by decide)
      (by decide) (by decide) (by decide) (Or.inr rfl)

/-- The rows come one after the other, so that no page is mapped twice. -/
theorem kmap_sorted (img : Image) :
    (kmap img).Pairwise fun k k' => k.virt + k.size ≤ k'.virt := by
  obtain ⟨text, data, heq, ⟨htext, htextEnd, -⟩, hdata, hdataEnd, -⟩ := kmap_eq img
  have hlink : KERNBASE + EXTMEM = KERNLINK := rfl
  have htop : KERNBASE + PHYSTOP ≤ DEVSPACE := by decide
  have hstart := img.text
  have hfits := img.fits
  rw [heq]
  simp only [List.pairwise_cons, List.forall_mem_cons, List.not_mem_nil, false_implies,
    implies_true, List.Pairwise.nil, and_true, kmap_io_size]
  omega

theorem Kmap.entry_eq_none_iff {k : Kmap} {x : Nat} :
    k.entry x = none ↔ ¬ (k.virt ≤ x ∧ x < k.virt + k.size) := by
  unfold Kmap.entry
  split
  · next hin => simp [hin]
  · next hout => simp [hout]

theorem Shows.wp_mappagesRow {k : Kmap} (hk : k.Ok) {Q : Bool → Mem → Prop}
    (h : Shows st base m d free rest s) (hbare : s.Bare)
    (htables : ∀ x, k.entry x ≠ none → kernelTable (PDX x) = true)
    (hremap : (∃ x, x % PGSIZE = 0 ∧ k.entry x ≠ none ∧ s.kernel x ≠ none) → ∀ m, E .remap m)
    (hfail : ∀ m' s', s'.Bare → s'.Lacks → Shows st base m' d [] rest s' → Q false m')
    (hok : ∀ m' free' s', s'.Bare →
      (∀ x, x % PGSIZE = 0 → s'.kernel x = (k.entry x).or (s.kernel x)) →
      Shows st base m' d free' rest s' → Q true m') :
    wp (mappages d k.virt k.size k.physStart k.perm) Q E m := by
  obtain ⟨haligned, hkernel, hpos, hstop, hphys, -, hperm⟩ := hk
  have hlast : uint (k.virt + k.size + (2 ^ 32 - 1)) = k.virt + k.size - 1 := by
    unfold uint
    omega
  have hdown : PGROUNDDOWN k.virt = k.virt := by
    unfold PGROUNDDOWN PGSIZE at *
    omega
  have hpermlt : k.perm < PGSIZE := by
    rcases hperm with hperm | hperm <;> rw [hperm] <;> decide
  obtain ⟨last, hlast'⟩ : ∃ last, last = PGROUNDDOWN (k.virt + k.size - 1) := ⟨_, rfl⟩
  have hbounds : last % PGSIZE = 0 ∧ k.virt ≤ last ∧ last ≤ k.virt + k.size - 1 ∧
      k.virt + k.size - 1 < last + PGSIZE := by
    unfold PGROUNDDOWN PGSIZE at *
    omega
  have hmem : ∀ x, x % PGSIZE = 0 →
      (x ∈ pages k.virt (last + 1) ↔ k.virt ≤ x ∧ x < k.virt + k.size) := by
    intro x hx
    rw [mem_pages haligned]
    unfold PGSIZE at *
    omega
  have hentry : ∀ x ∈ pages k.virt (last + 1), x % PGSIZE = 0 ∧ k.entry x ≠ none := by
    intro x hx
    have hxa := ((mem_pages haligned).mp hx).1
    exact ⟨hxa, fun hnone => Kmap.entry_eq_none_iff.mp hnone ((hmem x hxa).mp hx)⟩
  unfold mappages
  rw [hlast, hdown, ← hlast']
  refine h.wp_mappagesLoop hbounds.1 (by omega) hpermlt _ hbare haligned hkernel hbounds.2.1 ?_
    (by omega) (fun x hx => htables x (hentry x hx).2) ?_ hfail ?_
  · unfold PGSIZE
    unfold KERNBASE at hkernel
    omega
  · rintro ⟨x, hx, hmap⟩
    exact hremap ⟨x, (hentry x hx).1, (hentry x hx).2, hmap⟩
  · intro m' free' s' hbare' hkern hm'
    refine hok m' free' s' hbare' (fun x hx => ?_) hm'
    rw [hkern x]
    by_cases hin : k.virt ≤ x ∧ x < k.virt + k.size
    · rw [if_pos ((hmem x hx).mpr hin), Kmap.entry, if_pos hin, Option.some_or]
    · rw [if_neg (fun hmem' => hin ((hmem x hx).mp hmem')), Kmap.entry_eq_none_iff.mpr hin,
        Option.none_or]

theorem Shows.wp_mapKernel {ks : List Kmap} (hks : ∀ k ∈ ks, k.Ok)
    (hsorted : ks.Pairwise fun k k' => k.virt + k.size ≤ k'.virt)
    (htables : ∀ k ∈ ks, ∀ x, k.entry x ≠ none → kernelTable (PDX x) = true) :
    ∀ {m : Mem} {free : List Nat} {s : Space} {Q : Bool → Mem → Prop},
      Shows st base m d free rest s → s.Bare →
      (∀ k ∈ ks, ∀ x, k.entry x ≠ none → x % PGSIZE = 0 → s.kernel x = none) →
      (∀ m' s', s'.Bare → s'.Lacks → Shows st base m' d [] rest s' → Q false m') →
      (∀ m' free' s', s'.Bare →
        (∀ x, x % PGSIZE = 0 → s'.kernel x = (kernelMap ks x).or (s.kernel x)) →
        Shows st base m' d free' rest s' → Q true m') →
      wp (mapKernel d ks) Q E m := by
  induction ks with
  | nil =>
    intro m free s Q h hbare _ _ hok
    exact hok m free s hbare (fun _ _ => rfl) h
  | cons k ks ih =>
    intro m free s Q h hbare hnone hfail hok
    obtain ⟨hfirst, hsorted⟩ := List.pairwise_cons.mp hsorted
    have hdisjoint : ∀ k' ∈ ks, ∀ x, k'.entry x ≠ none → k.entry x = none := by
      intro k' hk' x hx
      have hle := hfirst k' hk'
      rw [Kmap.entry_eq_none_iff]
      intro hin
      exact hx (Kmap.entry_eq_none_iff.mpr (by omega))
    have hrest : ∀ x, k.entry x ≠ none → kernelMap ks x = none := by
      intro x hx
      refine List.findSome?_eq_none_iff.mpr fun k' hk' => ?_
      by_contra hx'
      exact hx (hdisjoint k' hk' x hx')
    rw [mapKernel, wp_bind]
    refine h.wp_mappagesRow (hks k List.mem_cons_self) hbare (htables k List.mem_cons_self) ?_ ?_ ?_
    · rintro ⟨x, hx, hentry, hmap⟩
      exact absurd (hnone k List.mem_cons_self x hentry hx) hmap
    · intro m' s' hbare' hlacks hm'
      rw [if_neg (by decide)]
      exact hfail m' s' hbare' hlacks hm'
    · intro m₁ free₁ s₁ hbare₁ hkern₁ hm₁
      rw [if_pos rfl]
      refine ih (fun k' hk' => hks k' (List.mem_cons_of_mem _ hk')) hsorted
        (fun k' hk' => htables k' (List.mem_cons_of_mem _ hk')) hm₁ hbare₁ ?_ hfail ?_
      · intro k' hk' x hentry hx
        rw [hkern₁ x hx, hdisjoint k' hk' x hentry, Option.none_or]
        exact hnone k' (List.mem_cons_of_mem _ hk') x hentry hx
      · intro m' free' s' hbare' hkern hm'
        refine hok m' free' s' hbare' (fun x hx => ?_) hm'
        have hcons : kernelMap (k :: ks) x = (k.entry x).or (kernelMap ks x) := by
          unfold kernelMap
          rw [List.findSome?_cons]
          cases k.entry x <;> rfl
        rw [hkern x hx, hkern₁ x hx, hcons]
        cases hentry : k.entry x with
        | none => rw [Option.none_or, Option.none_or]
        | some e =>
          rw [hrest x (by rw [hentry]; exact Option.some_ne_none e), Option.none_or, Option.some_or,
            Option.some_or, Option.some_or]

/-! ### The pages that a new directory takes -/

theorem kmap_tables (img : Image) :
    ∀ k ∈ kmap img, ∀ x, k.entry x ≠ none → kernelTable (PDX x) = true := by
  obtain ⟨text, data, heq, ⟨htext, htextEnd, -⟩, hdata, hdataEnd, -⟩ := kmap_eq img
  have hstart := img.text
  have hfits := img.fits
  intro k hk x hx
  have hin := not_not.mp (mt Kmap.entry_eq_none_iff.mpr hx)
  rw [heq] at hk
  have hrange : KERNBASE ≤ x ∧ x < KERNBASE + PHYSTOP ∨ DEVSPACE ≤ x ∧ x < 2 ^ 32 := by
    have hlink : KERNBASE + EXTMEM = KERNLINK := rfl
    have htop : DEVSPACE ≤ 2 ^ 32 := by decide
    simp only [List.mem_cons, List.not_mem_nil, or_false] at hk
    rcases hk with rfl | rfl | rfl | rfl
    · rw [kmap_io_size] at hin
      dsimp only at hin
      omega
    · omega
    · omega
    · rw [kmap_devices_size] at hin
      dsimp only at hin
      omega
  unfold kernelTable PDX NPDENTRIES
  unfold KERNBASE PHYSTOP DEVSPACE at hrange
  rw [decide_eq_true_eq]
  omega

theorem kernelMap_ne_none (img : Image) {i : Nat} (hi : kernelTable i = true) :
    kernelMap (kmap img) (i * 2 ^ 22) ≠ none := by
  obtain ⟨text, data, heq, ⟨htext, htextEnd, -⟩, hdata, hdataEnd, -⟩ := kmap_eq img
  have hlink : KERNBASE + EXTMEM = KERNLINK := rfl
  rw [kernelTable, decide_eq_true_eq] at hi
  rw [kernelMap, heq]
  intro hnone
  have hall := List.findSome?_eq_none_iff.mp hnone
  simp only [List.forall_mem_cons, Kmap.entry_eq_none_iff, kmap_io_size, kmap_devices_size] at hall
  obtain ⟨hio, hrow, hrow', hdev, -⟩ := hall
  unfold DEVSPACE at hdev
  unfold PHYSTOP at hdataEnd
  have hbase : KERNBASE = 0x80000000 := rfl
  omega

/-- A directory without user pages takes a page for itself and one for each of
its tables. -/
theorem Shows.length_eq (h : Shows st base m d free rest s) (hs : s.user = fun _ => none) :
    st.pages.length = free.length + rest.length + 1 + (List.range NPDENTRIES).countP s.table := by
  have huser : m.userPages d = [] := by
    refine Mem.userPages_eq_nil fun x hx haligned => ?_
    rw [h.mapping_eq_none hx haligned, hs]
  have htables : ∀ l : List Nat, (∀ i ∈ l, i < NPDENTRIES) →
      (l.flatMap fun i => (m.table d i).toList).length = l.countP s.table := by
    intro l hl
    induction l with
    | nil => rfl
    | cons i l ih =>
      have hi := h.table i (hl i List.mem_cons_self)
      rw [List.flatMap_cons, List.length_append, List.countP_cons, ← hi,
        ih fun j hj => hl j (List.mem_cons_of_mem _ hj)]
      cases m.table d i <;> simp [Nat.add_comm]
  have hall := h.all.length_eq
  unfold Mem.owned at hall
  rw [huser, List.append_nil, List.length_append, List.length_append, List.length_cons, Mem.tables,
    htables _ fun i hi => List.mem_range.mp hi] at hall
  omega

/-- The pages of a new directory: the directory and the tables of its kernel half. -/
def kernelPages : Nat := 65

theorem Space.Bare.countP (h : s.Bare) : (List.range NPDENTRIES).countP s.table =
    ((List.range NPDENTRIES).filter kernelTable).countP s.table := by
  rw [List.countP_filter]
  refine List.countP_congr fun i _ => ?_
  simpa using h.table i

theorem length_kernelTable :
    ((List.range NPDENTRIES).filter kernelTable).length + 1 = kernelPages := by
  decide +kernel

theorem Shows.lacks_length (h : Shows st base m d [] rest s) (hbare : s.Bare) (hlacks : s.Lacks) :
    st.pages.length < rest.length + kernelPages := by
  have hlength := h.length_eq hbare.user
  obtain ⟨i, hi, hmissing⟩ := hlacks
  have hmem : i ∈ (List.range NPDENTRIES).filter kernelTable := by
    refine List.mem_filter.mpr ⟨List.mem_range.mpr ?_, hi⟩
    rw [kernelTable, decide_eq_true_eq] at hi
    unfold NPDENTRIES
    omega
  have hless := List.countP_lt_length_iff.mpr ⟨i, hmem, hmissing⟩
  have htotal := length_kernelTable
  rw [hbare.countP, List.length_nil] at hlength
  omega

/-- A new directory, with its kernel half and no user page. -/
structure Space.New (img : Image) (s : Space) : Prop extends s.Bare where
  kernel : ∀ x, x % PGSIZE = 0 → s.kernel x = kernelMap (kmap img) x

theorem Shows.new_length (h : Shows st base m d free rest s) (hnew : s.New img) :
    st.pages.length = free.length + rest.length + kernelPages := by
  have hlength := h.length_eq hnew.user
  have htotal := length_kernelTable
  have hfull : ((List.range NPDENTRIES).filter kernelTable).countP s.table =
      ((List.range NPDENTRIES).filter kernelTable).length := by
    refine List.countP_eq_length.mpr fun i hi => ?_
    obtain ⟨hlt, hi⟩ := List.mem_filter.mp hi
    have hpdx : PDX (i * 2 ^ 22) = i := by
      rw [List.mem_range] at hlt
      unfold PDX NPDENTRIES at *
      omega
    have haligned : i * 2 ^ 22 % PGSIZE = 0 := by
      unfold PGSIZE
      omega
    have hrange : KERNBASE ≤ i * 2 ^ 22 ∧ i * 2 ^ 22 < 2 ^ 32 := by
      rw [kernelTable, decide_eq_true_eq] at hi
      unfold KERNBASE
      omega
    -- the first page of the table is mapped
    have hmapped : m.mapping d (i * 2 ^ 22) ≠ none := by
      rw [h.kernel _ hrange.1 hrange.2 haligned, hnew.kernel _ haligned]
      exact kernelMap_ne_none img hi
    rw [← hpdx, ← Bool.not_eq_false]
    intro hmissing
    apply hmapped
    unfold Mem.mapping Mem.pte Mem.slot
    rw [(h.table_eq_none _).mpr hmissing]
    rfl
  rw [hnew.countP, hfull] at hlength
  omega

/-- A new directory maps the kernel half as `kmap` says and no user page. -/
theorem Pool.wp_setupkvm {Q : Nat → Mem → Prop} (h : Pool st base m free rest)
    (hE : KfreeStops img st E)
    (hnone : ∀ m' free', free.length < kernelPages → Pool st base m' free' rest → Q 0 m')
    (hsome : ∀ d m' free' s', d ≠ 0 → free.length = free'.length + kernelPages → s'.New img →
      Shows st base m' d free' rest s' → Q d m') : wp (setupkvm img) Q E m := by
  have htop : ¬ DEVSPACE < P2V PHYSTOP := by
    unfold P2V uint DEVSPACE PHYSTOP KERNBASE
    norm_num
  have hall := h.all.length_eq
  rw [List.length_append] at hall
  unfold setupkvm
  rw [wp_bind]
  apply h.wp_kalloc
  · intro hempty
    rw [if_pos rfl]
    exact hnone m free (by rw [hempty]; decide) h
  · intro d free' hfree hpos
    subst hfree
    rw [if_neg hpos, wp_bind, wp_modify, wp_bind, wp_panicIf]
    refine ⟨fun hbad => absurd hbad htop, fun _ => ?_⟩
    have hnew : Shows st (base.setPage d Bytes.zero) _ d free' rest Space.empty :=
      (h.take Bytes.zero).adopt (m.setPage_page ..)
    have hback := h.kept_head base Bytes.zero
    rw [wp_bind]
    refine hnew.wp_mapKernel (kmap_ok img) (kmap_sorted img) (kmap_tables img)
      ⟨rfl, fun _ hi => (nomatch hi)⟩ (fun _ _ _ _ _ => rfl) ?_ ?_
    · intro m₁ s₁ hbare hlacks hm₁
      have hshort := hm₁.lacks_length hbare hlacks
      rw [if_neg (by decide), wp_bind]
      refine hm₁.wp_freevm hE fun m₂ free₂ hm₂ => ?_
      rw [wp_pure]
      exact hnone m₂ free₂ (by omega) (hm₂.rebase hback)
    · intro m₁ free₁ s₁ hbare hkern hm₁
      have hnew₁ : s₁.New img := ⟨hbare, fun x hx => (hkern x hx).trans Option.or_none⟩
      have hlength := hm₁.new_length hnew₁
      rw [if_pos rfl, wp_pure]
      exact hsome d m₁ free₁ s₁ hpos (by omega) hnew₁ (hm₁.rebase hback)

/-! ### A machine with memory enough -/

/-- The first address of free memory. -/
def wideBase : Nat := 0x80401000

/-- The number of free pages. -/
def wideCount : Nat := 2000

/-- An empty directory, and memory enough for more of them. -/
def wideMachine : Mem where
  freelist := wideBase
  page := fun v =>
    if wideBase ≤ v ∧ v + PGSIZE < wideBase + wideCount * PGSIZE then
      Bytes.zero.setNum 4 0 (v + PGSIZE)
    else Bytes.zero

def wideFree : List Nat := (List.range' 0 wideCount).map fun i => wideBase + i * PGSIZE

theorem wideFree_length : wideFree.length = wideCount := by
  rw [wideFree, List.length_map, List.length_range']

theorem wideMachine_next {v : Nat} (hv : wideBase ≤ v) : wideMachine.next v =
    if v + PGSIZE < wideBase + wideCount * PGSIZE then v + PGSIZE else 0 := by
  unfold Mem.next Mem.word wideMachine
  simp only [hv, true_and]
  split
  · next hlt =>
      rw [Bytes.num_setNum_self _ _ (by decide)]
      refine Nat.mod_eq_of_lt ?_
      unfold wideBase wideCount PGSIZE at *
      omega
  · exact Bytes.num_zero 4 0

theorem wideMachine_seg (n : Nat) : ∀ i, 0 < n → i + n = wideCount →
    Seg wideMachine.next (wideBase + i * PGSIZE)
      ((List.range' i n).map fun i => wideBase + i * PGSIZE) 0 := by
  induction n with
  | zero =>
    intro i hpos
    exact absurd hpos (Nat.lt_irrefl 0)
  | succ n ih =>
    intro i _ hi
    rw [List.range'_succ, List.map_cons]
    refine ⟨rfl, ?_⟩
    rw [wideMachine_next (Nat.le_add_right _ _)]
    by_cases hlast : n = 0
    · rw [hlast, if_neg]
      · rfl
      · rw [← hi]
        unfold PGSIZE
        omega
    · rw [if_pos (by rw [← hi]; unfold PGSIZE; omega), Nat.add_assoc, ← Nat.succ_mul]
      exact ih (i + 1) (by omega) (by omega)

theorem wideMachine_sound : Sound smallImage wideMachine 0x80400000 wideFree [] := by
  have hown : wideMachine.owned 0x80400000 = [0x80400000] := Mem.owned_of_zero rfl
  have hmem : ∀ v ∈ wideFree ++ ([] ++ wideMachine.owned 0x80400000),
      v % PGSIZE = 0 ∧ 0x80400000 ≤ v ∧ v < 0x80400000 + 2001 * PGSIZE := by
    intro v hv
    rw [hown, List.nil_append, List.mem_append, List.mem_singleton] at hv
    rcases hv with hv | rfl
    · obtain ⟨i, hi, rfl⟩ := List.mem_map.mp hv
      rw [List.mem_range'_1] at hi
      unfold wideBase PGSIZE
      unfold wideCount at hi
      omega
    · decide
  refine ⟨?_, ?_, ?_⟩
  · have hseg := wideMachine_seg wideCount 0 (by decide) (Nat.zero_add _)
    rw [Nat.zero_mul, Nat.add_zero] at hseg
    exact hseg
  · rw [hown, List.nil_append, List.nodup_append]
    refine ⟨List.Nodup.map ?_ List.nodup_range', List.nodup_singleton _, ?_⟩
    · intro i j hij
      have hmul : i * PGSIZE = j * PGSIZE := Nat.add_left_cancel hij
      exact Nat.eq_of_mul_eq_mul_right (by decide) hmul
    · intro v hv w hw
      obtain ⟨i, -, rfl⟩ := List.mem_map.mp hv
      rw [List.mem_singleton.mp hw]
      unfold wideBase
      omega
  · intro v hv
    obtain ⟨haligned, hge, hlt⟩ := hmem v hv
    have hkend : smallImage.kend = 0x80200000 := rfl
    unfold IsPage Image.Usable V2P uint PHYSTOP KERNBASE
    unfold PGSIZE at *
    omega

end Xv6.Vm
