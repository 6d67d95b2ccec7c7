import Xv6.Vm.Space

/-!
The functions of `vm.c` on spaces. A function that stops does so in one of its
panics: `kfree` on a page that is not the allocator's, or `remap`.
-/

namespace Xv6.Vm

open Prog

/-- A page that `kfree` takes. -/
def Image.Usable (img : Image) (v : Nat) : Prop := img.kend ≤ v ∧ 0 < V2P v ∧ V2P v < PHYSTOP

instance (img : Image) (v : Nat) : Decidable (img.Usable v) := inferInstanceAs (Decidable (_ ∧ _))

/-- Where some pages of the stock are not the allocator's, `kfree` may panic. -/
def KfreeStops (img : Image) (st : Stock) (E : Panic → Mem → Prop) : Prop :=
  ∀ v ∈ st.pages, ¬ img.Usable v → ∀ m, E .kfree m

theorem kfreeStops_of_usable {img : Image} {st : Stock} {E : Panic → Mem → Prop}
    (h : ∀ v ∈ st.pages, img.Usable v) : KfreeStops img st E :=
  fun v hv hnot => absurd (h v hv) hnot

namespace Space

variable (s : Space)

/-- The tables that an entry for `va` needs. -/
def missing (va : Nat) : Nat := if s.table (PDX va) then 0 else 1

/-- The space without the user pages at these addresses. -/
def unmap (l : List Nat) : Space := { s with user := fun x => if x ∈ l then none else s.user x }

/-- The pages at these addresses. -/
def pagesAt (l : List Nat) : List Nat := l.filterMap fun a => (s.user a).map fun v => pageOf v.1

/-- The pages that mapping these addresses takes: one each, and one for every
table that does not exist yet. -/
def need (s : Space) : List Nat → Nat
  | [] => 0
  | a :: l => 1 + s.missing a + (s.addTable (PDX a)).need l

theorem addTable_of_table {i : Nat} (h : s.table i = true) : s.addTable i = s := by
  have hset : set s.table i true = s.table := by
    rw [← h, set_eta]
  unfold addTable
  rw [hset]

theorem setUser_of_eq {a : Nat} {v : Option (Nat × Page)} (h : s.user a = v) :
    s.setUser a v = s := by
  unfold setUser
  rw [← h, set_eta]

theorem unmap_nil : s.unmap [] = s := by
  unfold unmap
  simp only [List.not_mem_nil, if_false]

theorem unmap_cons (a : Nat) (l : List Nat) : s.unmap (a :: l) = (s.setUser a none).unmap l := by
  unfold unmap setUser
  congr 1
  funext x
  by_cases hxa : x = a
  · subst hxa
    simp only [List.mem_cons, true_or, if_true, set_self, ite_self]
  · simp only [List.mem_cons, hxa, false_or, set_of_ne _ _ hxa]

theorem pagesAt_cons (a : Nat) (l : List Nat) :
    s.pagesAt (a :: l) = ((s.user a).map fun v => pageOf v.1).toList ++ s.pagesAt l := by
  unfold pagesAt
  rw [List.filterMap_cons]
  cases (s.user a).map fun v => pageOf v.1 <;> rfl

theorem pagesAt_setUser {a : Nat} {l : List Nat} (ha : a ∉ l) (v : Option (Nat × Page)) :
    (s.setUser a v).pagesAt l = s.pagesAt l := by
  unfold pagesAt
  refine List.filterMap_congr fun x hx => ?_
  rw [setUser_of_ne]
  rintro rfl
  exact ha hx

/-- Mapping a user page does not change what the other addresses need. -/
theorem need_setUser (a : Nat) (v : Option (Nat × Page)) (l : List Nat) :
    (s.setUser a v).need l = s.need l := by
  induction l generalizing s with
  | nil => rfl
  | cons b l ih =>
    unfold need
    exact congrArg _ (ih (s.addTable (PDX b)))

end Space

variable {img : Image} {st : Stock} {base m : Mem} {d v a : Nat} {free rest : List Nat} {s : Space}
  {E : Panic → Mem → Prop}

/-! ### The allocator -/

theorem wp_kalloc {Q : Nat → Mem → Prop} (hlist : m.FreeList free) (hpages : ∀ p ∈ free, IsPage p)
    (hnone : free = [] → Q 0 m)
    (hsome : ∀ r free', free = r :: free' → r ≠ 0 → Q r { m with freelist := m.next r }) :
    wp kalloc Q E m := by
  unfold kalloc
  rw [wp_bind, wp_gets, wp_bind, wp_when]
  cases free with
  | nil =>
    have hzero : m.freelist = 0 := hlist
    refine ⟨fun hne => absurd hzero hne, fun _ => ?_⟩
    rw [wp_pure, hzero]
    exact hnone rfl
  | cons r free =>
    obtain ⟨hr, -⟩ := hlist
    have hpos : r ≠ 0 := by
      have := (hpages r List.mem_cons_self).2.1
      omega
    rw [hr]
    refine ⟨fun _ => ?_, fun hzero => absurd hpos hzero⟩
    rw [wp_modify, wp_pure]
    exact hsome r free rfl hpos

theorem wp_kfree {Q : Unit → Mem → Prop} (hpage : IsPage v) (hE : ¬ img.Usable v → ∀ m, E .kfree m)
    (hQ : Q () (m.freed v)) : wp (kfree img v) Q E m := by
  unfold kfree
  rw [wp_bind, wp_panicIf]
  constructor
  · intro hbad
    refine hE (fun husable => ?_) m
    rcases hbad with haligned | hlow | hhigh
    · exact haligned hpage.1
    · exact Nat.not_lt.mpr husable.1 hlow
    · exact Nat.not_lt.mpr hhigh husable.2.2
  · intro _
    simp only [wp_bind, wp_modify]
    have hfreed : ({ (m.setPage v junk).setWord v 0 (m.setPage v junk).freelist with
        freelist := v } : Mem) = m.freed v := by
      unfold Mem.freed Mem.setWord Mem.setPage
      simp only [set_self, set_set, Nat.mul_zero]
    rwa [hfreed]

namespace Shows

theorem wp_kalloc {Q : Nat → Mem → Prop} (h : Shows st base m d free rest s)
    (hnone : free = [] → Q 0 m)
    (hsome : ∀ r free', free = r :: free' → r ≠ 0 → Q r { m with freelist := m.next r }) :
    wp kalloc Q E m :=
  Vm.wp_kalloc h.list (fun _ hp => h.isPage (List.mem_append_left _ hp)) hnone hsome

theorem wp_kfree {Q : Unit → Mem → Prop} (h : Shows st base m d free (v :: rest) s)
    (hE : KfreeStops img st E)
    (hQ : Shows st base (m.freed v) d (v :: free) rest s → Q () (m.freed v)) :
    wp (kfree img v) Q E m := by
  have hv : v ∈ free ++ (v :: rest ++ m.owned d) :=
    List.mem_append_right _ (List.mem_append_left _ List.mem_cons_self)
  exact Vm.wp_kfree (h.isPage hv) (hE v (h.mem_stock hv)) (hQ h.give)

end Shows

/-! ### Page tables -/

theorem wp_walk {va : Nat} {Q : Option (Nat × Nat) → Mem → Prop}
    (h : Q ((m.table d (PDX va)).map fun t => (t, PTX va)) m) :
    wp (walkpgdir d va false) Q E m := by
  unfold Mem.table entry at h
  unfold walkpgdir
  rw [wp_bind, wp_gets]
  apply wp_ite
  · intro hpresent
    rw [if_pos hpresent] at h
    exact h
  · intro habsent
    rw [if_neg habsent] at h
    exact h

namespace Shows

/-- An allocating walk ends at a table, unless there is none and no page for it. -/
theorem wp_walkpgdir {va : Nat} {Q : Option (Nat × Nat) → Mem → Prop}
    (h : Shows st base m d free rest s)
    (hfull : free = [] → s.table (PDX va) = false → Q none m)
    (hok : ∀ t m', s.missing va ≤ free.length → m'.table d (PDX va) = some t →
      Shows st base m' d (free.drop (s.missing va)) rest (s.addTable (PDX va)) →
      Q (some (t, PTX va)) m') : wp (walkpgdir d va true) Q E m := by
  have hi : PDX va < NPDENTRIES := PDX_lt va
  unfold walkpgdir
  rw [wp_bind, wp_gets]
  apply wp_ite
  · intro hpresent
    have ht : m.table d (PDX va) = some (P2V (PTE_ADDR (m.word d (PDX va)))) := if_pos hpresent
    have htable : s.table (PDX va) = true := by
      rw [← h.table _ hi, ht, Option.isSome_some]
    rw [wp_pure]
    have hzero : s.missing va = 0 := if_pos htable
    refine hok _ _ (by omega) ht ?_
    rw [s.addTable_of_table htable, hzero, List.drop_zero]
    exact h
  intro habsent
  have hnone : m.table d (PDX va) = none := if_neg habsent
  have htable : s.table (PDX va) = false := (h.table_eq_none va).mp hnone
  rw [if_neg (by decide), wp_bind]
  apply h.wp_kalloc
  · intro hempty
    rw [if_pos rfl]
    exact hfull hempty htable
  · intro t free' hfree hpos
    subst hfree
    rw [if_neg hpos]
    simp only [wp_bind, wp_modify, wp_pure]
    -- the new table is cleared while it is the caller's, then entered in the directory
    have htaken := h.take Bytes.zero
    have hzero : ({ (m.setPage t Bytes.zero) with freelist := m.next t } : Mem).page t =
      Bytes.zero :=
      m.setPage_page ..
    have hkept := (htaken.table_eq_none va).mpr htable
    have hpage : IsPage t := h.isPage List.mem_cons_self
    have hone : s.missing va = 1 := if_neg (by rw [htable]; decide)
    rw [hone] at hok
    refine hok t _ (by rw [List.length_cons]; omega) (table_newTable hpage hi) ?_
    rw [List.drop_one, List.tail_cons]
    refine (htaken.newTable hi hkept hzero).rebase fun p hp => base.setPage_page_of_ne _ ?_
    exact (h.ne_of_free List.mem_cons_self (List.mem_append_left _ hp)).symm

/-- A page of the caller's is mapped, or stays the caller's. -/
theorem wp_mappages {perm : Nat} {Q : Bool → Mem → Prop} (h : Shows st base m d free (v :: rest) s)
    (ha : a < KERNBASE) (haligned : a % PGSIZE = 0) (hperm : perm < PGSIZE)
    (hremap : s.user a ≠ none → ∀ m, E .remap m)
    (hfull : free = [] → s.table (PDX a) = false → Q false m)
    (hok : ∀ m', s.missing a ≤ free.length → Shows st base m' d (free.drop (s.missing a)) rest
      ((s.addTable (PDX a)).setUser a (some (V2P v ||| perm ||| PTE_P, base.page v))) → Q true m') :
    wp (mappages d a PGSIZE (V2P v) perm) Q E m := by
  have hdown : PGROUNDDOWN a = a ∧ PGROUNDDOWN (a + 4095) = a := by
    unfold PGROUNDDOWN PGSIZE at *
    omega
  have hlast : uint (a + PGSIZE + (2 ^ 32 - 1)) = a + 4095 := by
    unfold uint PGSIZE KERNBASE at *
    omega
  have hrounds : 2 ^ 20 = 2 ^ 20 - 1 + 1 := by norm_num
  unfold mappages
  rw [hdown.1, hlast, hdown.2, hrounds]
  generalize 2 ^ 20 - 1 = n
  rw [mappagesLoop, wp_bind]
  apply h.wp_walkpgdir
  · exact hfull
  · intro t m₁ hmissing ht hm₁
    simp only [wp_bind, wp_gets, wp_panicIf, wp_modify]
    have hpte : m₁.pte d a = some (m₁.word t (PTX a)) := Mem.pte_of_table ht
    constructor
    · intro hpresent
      refine hremap (fun hnone => ?_) m₁
      have hmap := (hm₁.mapping_eq_none ha haligned).mpr hnone
      rw [Mem.mapping_eq_some.mpr ⟨hpte, hpresent⟩] at hmap
      cases hmap
    · intro habsent
      simp only [if_true, wp_pure]
      have hv : IsPage v :=
        h.isPage (List.mem_append_right _ (List.mem_append_left _ List.mem_cons_self))
      have hflags : perm ||| PTE_P < PGSIZE := Nat.or_lt_two_pow (n := 12) hperm (by decide)
      have hentry : entry (V2P v ||| perm ||| PTE_P) = some v := by
        rw [Nat.or_assoc]
        exact entry_or hv hflags (present_or_right _ (by decide))
      have hlt : V2P v ||| perm ||| PTE_P < 2 ^ 32 := by
        rw [Nat.or_assoc]
        exact or_lt hflags
      have hleaf : m₁.leaf d (PDX a) (PTX a) = none := by
        unfold Mem.leaf
        rw [ht]
        exact if_neg habsent
      obtain ⟨hpresent, hpageOf⟩ := present_of_entry hentry
      have hmapped := hm₁.setPte rest base ha haligned ht hlt
        (by
          rw [hentry, hleaf]
          exact List.perm_append_comm.trans (by rw [Option.toList_none, List.append_nil]; rfl))
        fun p hp => hm₁.kept p (List.mem_cons_of_mem _ hp)
      rw [if_pos hpresent, hpageOf, hm₁.kept v List.mem_cons_self] at hmapped
      exact hok _ hmissing hmapped

end Shows

/-! ### Taking pages back -/

/-- `deallocuvm` on one page address. -/
def visitPage (img : Image) (pgdir a : Nat) : VmM Unit := do
  match ← walkpgdir pgdir a false with
  | none => return ()
  | some (pgtab, i) => deallocuvmPage img pgtab i

theorem walkpgdir_run (d va : Nat) (m : Mem) :
    walkpgdir d va false m = (.ok ((m.table d (PDX va)).map fun t => (t, PTX va)), m) := by
  have hgets : (gets fun m => m.word d (PDX va) : VmM Nat) m = (.ok (m.word d (PDX va)), m) := rfl
  unfold walkpgdir Mem.table entry
  rw [bind_ok hgets]
  by_cases hpresent : Present (m.word d (PDX va))
  · rw [if_pos hpresent, if_pos hpresent]
    rfl
  · rw [if_neg hpresent, if_neg hpresent, if_pos rfl]
    rfl

theorem visitPage_of_none (h : m.table d (PDX a) = none) : visitPage img d a m = (.ok (), m) := by
  have hrun := walkpgdir_run d a m
  rw [h] at hrun
  unfold visitPage
  rw [bind_ok hrun]
  rfl

/-- Where there is no table, there is nothing to visit. -/
theorem visit_skip {hi : Nat} (n : Nat) :
    ∀ {c : Nat}, (∀ k < n, m.table d (PDX (c + k * PGSIZE)) = none) →
      forEach (visitPage img d) (pages c hi) m =
        forEach (visitPage img d) (pages (c + n * PGSIZE) hi) m := by
  induction n with
  | zero =>
    intro c _
    rw [Nat.zero_mul, Nat.add_zero]
  | succ n ih =>
    intro c hnone
    have hnext : c + (n + 1) * PGSIZE = c + PGSIZE + n * PGSIZE := by ring
    rcases Nat.lt_or_ge c hi with hlt | hge
    · have hfirst := hnone 0 (Nat.succ_pos n)
      rw [Nat.zero_mul, Nat.add_zero] at hfirst
      rw [pages_of_lt hlt, forEach, bind_ok (visitPage_of_none hfirst), hnext]
      refine ih fun k hk => ?_
      rw [show c + PGSIZE + k * PGSIZE = c + (k + 1) * PGSIZE by ring]
      exact hnone (k + 1) (by omega)
    · rw [pages_of_le hge, pages_of_le (by omega)]

variable {oldsz newsz : Nat}

/-- The jump over a missing table leaves out nothing: the loop of `deallocuvm` is
one visit to each page address. -/
theorem deallocuvmLoop_eq (hsz : oldsz ≤ KERNBASE) (n : Nat) :
    ∀ {a : Nat}, a % PGSIZE = 0 → oldsz ≤ a + n * PGSIZE →
      deallocuvmLoop img d oldsz n a = forEach (visitPage img d) (pages a oldsz) := by
  induction n with
  | zero =>
    intro a _ hend
    rw [pages_of_le (by omega)]
    rfl
  | succ n ih =>
    intro a haligned hend
    have hrounds : (n + 1) * PGSIZE = n * PGSIZE + PGSIZE := by ring
    rw [deallocuvmLoop]
    rcases Nat.lt_or_ge a oldsz with hlt | hge
    · rw [if_pos hlt, pages_of_lt hlt, forEach]
      funext m
      have hrun := walkpgdir_run d a m
      rw [bind_ok hrun]
      cases ht : m.table d (PDX a) with
      | none =>
        rw [bind_ok (visitPage_of_none ht)]
        -- `n'` pages are left in the range of the directory entry
        obtain ⟨n', hn'⟩ : ∃ n', n' = 1024 - PTX a - 1 := ⟨_, rfl⟩
        have hptx : PTX a < 1024 := PTX_lt a
        have hsplit : a = PDX a * 2 ^ 22 + PTX a * 2 ^ 12 ∧ PDX a < 512 := by
          unfold PDX PTX NPDENTRIES NPTENTRIES
          unfold PGSIZE at haligned
          unfold KERNBASE at hsz
          omega
        have hjump : uint (uint (PGADDR (PDX a + 1) 0 0 + (2 ^ 32 - PGSIZE)) + PGSIZE) =
            a + PGSIZE + n' * PGSIZE := by
          unfold PGADDR uint PGSIZE
          omega
        have hnone : ∀ k < n', m.table d (PDX (a + PGSIZE + k * PGSIZE)) = none := by
          intro k hk
          have hpdx : PDX (a + PGSIZE + k * PGSIZE) = PDX a := by
            generalize PDX a = i at *
            generalize PTX a = j at *
            unfold PDX NPDENTRIES PGSIZE
            omega
          rw [hpdx, ht]
        change deallocuvmLoop img d oldsz n _ m = _
        rw [hjump, visit_skip n' hnone]
        refine congrFun (ih ?_ ?_) m
        · unfold PGSIZE at *
          omega
        · omega
      | some t =>
        have hnext := uint_next (hlt.le.trans hsz)
        have hvisit : visitPage img d a m = deallocuvmPage img t (PTX a) m := by
          rw [ht] at hrun
          unfold visitPage
          rw [bind_ok hrun]
          rfl
        change (deallocuvmPage img t (PTX a) >>= fun _ => deallocuvmLoop img d oldsz n _) m = _
        rw [hnext, ih (by unfold PGSIZE at *; omega) (by omega)]
        cases hpage : deallocuvmPage img t (PTX a) m with
        | mk r m' =>
          cases r with
          | ok u => rw [bind_ok hpage, bind_ok (hvisit.trans hpage)]
          | error e => rw [bind_error hpage, bind_error (hvisit.trans hpage)]
    · rw [if_neg (Nat.not_lt.mpr hge), pages_of_le hge]
      rfl

theorem PGROUNDUP_aligned (x : Nat) : PGROUNDUP x % PGSIZE = 0 := Nat.mul_mod_left _ _

theorem PGROUNDUP_zero : PGROUNDUP 0 = 0 := by
  unfold PGROUNDUP uint PGSIZE
  norm_num

theorem deallocuvm_eq (hsz : oldsz ≤ KERNBASE) (hlt : newsz < oldsz) :
    deallocuvm img d oldsz newsz = do
      forEach (visitPage img d) (pages (PGROUNDUP newsz) oldsz)
      return newsz := by
  unfold deallocuvm
  rw [if_neg (Nat.not_le.mpr hlt), deallocuvmLoop_eq hsz _ (PGROUNDUP_aligned newsz) ?_]
  unfold PGSIZE
  omega

namespace Shows

theorem wp_deallocuvmPage {t : Nat} {Q : Unit → Mem → Prop} (h : Shows st base m d free rest s)
    (ha : a < KERNBASE) (haligned : a % PGSIZE = 0) (ht : m.table d (PDX a) = some t)
    (hE : KfreeStops img st E) (hnone : s.user a = none → Q () m)
    (hsome : ∀ e b m', s.user a = some (e, b) →
      Shows st base m' d (pageOf e :: free) rest (s.setUser a none) → Q () m') :
    wp (deallocuvmPage img t (PTX a)) Q E m := by
  have hpte : m.pte d a = some (m.word t (PTX a)) := Mem.pte_of_table ht
  unfold deallocuvmPage
  rw [wp_bind, wp_gets, wp_when]
  constructor
  · intro hpresent
    obtain ⟨e, he⟩ : ∃ e, e = m.word t (PTX a) := ⟨_, rfl⟩
    rw [← he] at hpte hpresent ⊢
    have hmap : m.mapping d a = some e := Mem.mapping_eq_some.mpr ⟨hpte, hpresent⟩
    have huser : s.user a = some (e, m.page (pageOf e)) := by
      rw [← h.user a ha haligned]
      exact Mem.user_eq_some.mpr ⟨hmap, rfl⟩
    have hown : pageOf e ∈ free ++ (rest ++ m.owned d) :=
      List.mem_append_right _ (List.mem_append_right _ (Mem.pageOf_mem_owned ha hmap))
    have hleaf : m.leaf d (PDX a) (PTX a) = some (pageOf e) := by
      rw [Mem.leaf_eq_mapping, hmap, Option.map_some]
    -- the page is freed before its entry is cleared; the two stores are to different pages
    have hdropped := h.setPte (e := 0) (pageOf e :: rest)
      (base.setPage (pageOf e) (m.page (pageOf e))) ha haligned ht (by decide)
      (by
        rw [entry_zero, hleaf, Option.toList_none, List.append_nil]
        exact @List.perm_append_comm _ [pageOf e] _)
      (by
        intro p hp
        rcases List.mem_cons.mp hp with rfl | hp
        · rw [Mem.setPage_page]
        · have hne : p ≠ pageOf e := h.ne_of_rest hp (Mem.pageOf_mem_owned ha hmap)
          rw [base.setPage_page_of_ne _ hne, h.kept p hp])
    have hte : t ≠ pageOf e := (Mem.pageOf_ne_table h.owned_nodup ha hmap (PDX_lt a) ht).symm
    have hswap : (m.freed (pageOf e)).setWord t (PTX a) 0 =
        (m.setWord t (PTX a) 0).freed (pageOf e) := by
      unfold Mem.setWord Mem.setPage
      simp only [Mem.freed, set_of_ne _ _ hte]
      rw [set_comm _ _ _ hte.symm]
    rw [wp_bind, wp_panicIf]
    constructor
    · intro hzero
      refine hE _ (h.mem_stock hown) (fun husable => ?_) m
      have hpos := husable.2.1
      unfold pageOf at hpos
      rw [hzero] at hpos
      unfold V2P P2V uint KERNBASE at hpos
      omega
    · intro _
      rw [wp_bind]
      refine Vm.wp_kfree (h.isPage hown) (hE _ (h.mem_stock hown)) ?_
      rw [wp_modify]
      change Q () ((m.freed (pageOf e)).setWord t (PTX a) 0)
      rw [hswap]
      rw [if_neg (by decide)] at hdropped
      refine hsome e _ _ huser ?_
      refine hdropped.give.rebase fun p hp => base.setPage_page_of_ne _ ?_
      exact h.ne_of_rest hp (Mem.pageOf_mem_owned ha hmap)
  · intro habsent
    refine hnone ?_
    rw [← h.mapping_eq_none ha haligned]
    unfold Mem.mapping
    rw [hpte, Option.filter_some, if_neg (by simpa using habsent)]

theorem wp_visit {l : List Nat} {Q : Unit → Mem → Prop} (h : Shows st base m d free rest s)
    (hl : ∀ a ∈ l, a < KERNBASE ∧ a % PGSIZE = 0) (hnodup : l.Nodup) (hE : KfreeStops img st E)
    (hQ : ∀ m', Shows st base m' d ((s.pagesAt l).reverse ++ free) rest (s.unmap l) → Q () m') :
    wp (forEach (visitPage img d) l) Q E m := by
  induction l generalizing m free s with
  | nil =>
    refine hQ m ?_
    rw [s.unmap_nil]
    exact h
  | cons a l ih =>
    obtain ⟨ha, hnodup⟩ := List.nodup_cons.mp hnodup
    obtain ⟨hlt, haligned⟩ := hl a List.mem_cons_self
    have hl' : ∀ b ∈ l, b < KERNBASE ∧ b % PGSIZE = 0 :=
      fun b hb => hl b (List.mem_cons_of_mem _ hb)
    have hkeep : s.user a = none → wp (forEach (visitPage img d) l) Q E m := by
      intro hnone
      refine ih h hl' hnodup fun m' hm' => hQ m' ?_
      rw [s.unmap_cons, s.setUser_of_eq hnone, s.pagesAt_cons, hnone]
      exact hm'
    rw [forEach, wp_bind]
    unfold visitPage
    rw [wp_bind]
    apply wp_walk
    cases ht : m.table d (PDX a) with
    | none =>
      refine hkeep ((h.mapping_eq_none hlt haligned).mp ?_)
      unfold Mem.mapping Mem.pte Mem.slot
      rw [ht]
      rfl
    | some t =>
      refine h.wp_deallocuvmPage hlt haligned ht hE hkeep ?_
      intro e b m' huser hm'
      refine ih hm' hl' hnodup fun m'' hm'' => hQ m'' ?_
      rw [s.unmap_cons, s.pagesAt_cons, huser, Option.map_some, Option.toList_some,
        List.singleton_append, List.reverse_cons, List.append_assoc, List.singleton_append]
      rw [s.pagesAt_setUser ha] at hm''
      exact hm''

theorem wp_deallocuvm {oldsz newsz : Nat} {Q : Nat → Mem → Prop} (h : Shows st base m d free rest s)
    (hsz : oldsz ≤ KERNBASE) (hE : KfreeStops img st E) (hle : oldsz ≤ newsz → Q oldsz m)
    (hlt : ∀ m', newsz < oldsz → Shows st base m' d
      ((s.pagesAt (pages (PGROUNDUP newsz) oldsz)).reverse ++ free) rest
      (s.unmap (pages (PGROUNDUP newsz) oldsz)) → Q newsz m') :
    wp (deallocuvm img d oldsz newsz) Q E m := by
  rcases Nat.lt_or_ge newsz oldsz with hnew | hold
  · rw [deallocuvm_eq hsz hnew, wp_bind]
    refine h.wp_visit ?_ (nodup_pages _ _) hE fun m' hm' => hlt m' hnew hm'
    intro a ha
    obtain ⟨haligned, -, hlt'⟩ := (mem_pages (PGROUNDUP_aligned newsz)).mp ha
    exact ⟨by omega, haligned⟩
  · unfold deallocuvm
    rw [if_pos hold]
    exact hle hold

end Shows

/-! ### Growing -/

/-- The entry of a new user page. -/
def userPte (p : Nat) : Nat := V2P p ||| (PTE_W ||| PTE_U) ||| PTE_P

/-- User pages as `C` says at these addresses; what is elsewhere is as it was. -/
structure Space.Changed (C : Nat → Option (Nat × Page) → Prop) (s s' : Space) (l : List Nat) :
    Prop where
  new : ∀ x ∈ l, C x (s'.user x)
  old : ∀ x ∉ l, s'.user x = s.user x
  kernel : s'.kernel = s.kernel
  table : ∀ i, (∀ x ∈ l, PDX x ≠ i) → s'.table i = s.table i

namespace Space

/-- Zeroed pages from the free list. -/
abbrev Grown (s s' : Space) (free l : List Nat) : Prop :=
  Changed (fun _ v => ∃ p ∈ free, v = some (userPte p, Bytes.zero)) s s' l

/-- No user page. -/
abbrev Cleared (s s' : Space) (l : List Nat) : Prop := Changed (fun _ v => v = none) s s' l

variable {C C' : Nat → Option (Nat × Page) → Prop} {s' : Space} {l : List Nat}
  {v' : Option (Nat × Page)}

theorem Changed.nil : Changed C s s [] :=
  ⟨fun _ hx => absurd hx List.not_mem_nil, fun _ _ => rfl, rfl, fun _ _ => rfl⟩

theorem cleared_unmap (s : Space) (l : List Nat) : s.Cleared (s.unmap l) l :=
  ⟨fun _ hx => if_pos hx, fun _ hx => if_neg hx, rfl, fun _ _ => rfl⟩

theorem Changed.of_setUser (h : Changed C ((s.addTable (PDX a)).setUser a v') s' l) (ha : a ∈ l) :
    Changed C s s' l where
  new := h.new
  old x hx := by
    have hxa : x ≠ a := fun heq => hx (heq ▸ ha)
    rw [h.old x hx, setUser_of_ne _ hxa]
    rfl
  kernel := h.kernel
  table i hi := (h.table i hi).trans (addTable_of_ne _ (hi a ha).symm)

theorem Changed.cons (hl : a ∉ l) (h : Changed C' ((s.addTable (PDX a)).setUser a v') s' l)
    (ha : C a v') (hC : ∀ x v, C' x v → C x v) : Changed C s s' (a :: l) where
  new := by
    intro x hx
    rcases List.mem_cons.mp hx with rfl | hx
    · rw [h.old x hl, setUser_self]
      exact ha
    · exact hC x _ (h.new x hx)
  old := by
    intro x hx
    obtain ⟨hxa, hxl⟩ := not_or.mp (fun hor => hx (List.mem_cons.mpr hor))
    rw [h.old x hxl, setUser_of_ne _ hxa]
    rfl
  kernel := h.kernel
  table i hi := (h.table i fun x hx => hi x (List.mem_cons_of_mem a hx)).trans
    (addTable_of_ne _ (hi a List.mem_cons_self).symm)

end Space

namespace Shows

/-- The loop of `allocuvm` maps new pages at all its addresses if the free list
is long enough for them and their tables, and otherwise unmaps them all. -/
theorem wp_allocuvmLoop {oldsz newsz : Nat} (hsz : newsz < KERNBASE) (hE : KfreeStops img st E)
    (n : Nat) : ∀ {a : Nat} {m : Mem} {free : List Nat} {s : Space} {Q : Nat → Mem → Prop},
      Shows st base m d free rest s → a % PGSIZE = 0 → PGROUNDUP oldsz ≤ a → oldsz ≤ a →
      newsz ≤ a + n * PGSIZE →
      ((∃ x ∈ pages a newsz, s.user x ≠ none) → ∀ m, E .remap m) →
      (∀ m' s', s.need (pages a newsz) ≤ free.length → s.Grown s' free (pages a newsz) →
        Shows st base m' d (free.drop (s.need (pages a newsz))) rest s' → Q newsz m') →
      (∀ m' free' s', free.length < s.need (pages a newsz) →
        s.Cleared s' (pages (PGROUNDUP oldsz) newsz) →
        Shows st base m' d free' rest s' → Q 0 m') →
      wp (allocuvmLoop img d oldsz newsz n a) Q E m := by
  induction n with
  | zero =>
    intro a m free s Q h _ _ _ hend _ hok _
    rw [pages_of_le (by omega)] at hok
    exact hok m s (Nat.zero_le _) .nil h
  | succ n ih =>
    intro a m free s Q h haligned hstart hold hend hremap hok hfail
    have hrounds : (n + 1) * PGSIZE = n * PGSIZE + PGSIZE := by ring
    rw [allocuvmLoop]
    apply wp_ite
    · intro hlt
      have ha : a < KERNBASE := lt_trans hlt hsz
      have hmem : a ∈ pages (PGROUNDUP oldsz) newsz :=
        (mem_pages (PGROUNDUP_aligned oldsz)).mpr ⟨haligned, hstart, hlt⟩
      rw [pages_of_lt hlt] at hremap hok hfail
      obtain ⟨l, hl⟩ : ∃ l, l = pages (a + PGSIZE) newsz := ⟨_, rfl⟩
      rw [← hl] at hremap hok hfail
      have haligned' : (a + PGSIZE) % PGSIZE = 0 := by rw [Nat.add_mod_right, haligned]
      have hal : a ∉ l := by
        rw [hl, mem_pages haligned']
        unfold PGSIZE
        omega
      rw [wp_bind]
      apply h.wp_kalloc
      · intro hempty
        rw [if_pos rfl, wp_bind]
        refine h.wp_deallocuvm (Nat.le_of_lt hsz) hE (fun hle => by omega) fun m' _ hm' => ?_
        refine hfail _ _ _ ?_ (s.cleared_unmap _) hm'
        rw [hempty, List.length_nil, Space.need]
        omega
      · intro p free' hfree hpos
        subst hfree
        rw [if_neg hpos, wp_bind, wp_modify, wp_bind]
        have htaken := h.take Bytes.zero
        have hback := fun q hq => h.pool.kept_head base Bytes.zero q (List.mem_append_left _ hq)
        refine htaken.wp_mappages ha haligned (by decide) ?_ ?_ ?_
        · intro huser
          exact hremap ⟨a, List.mem_cons_self, huser⟩
        · intro hempty htable
          rw [if_neg (by decide), wp_bind]
          refine htaken.wp_deallocuvm (Nat.le_of_lt hsz) hE (fun hle => by omega) fun m' _ hm' => ?_
          rw [wp_bind]
          refine hm'.wp_kfree hE fun hgiven => ?_
          rw [wp_pure]
          refine hfail _ _ _ ?_ (s.cleared_unmap _) (hgiven.rebase hback)
          rw [hempty, Space.need, Space.missing, htable]
          simp only [List.length_cons, List.length_nil, Bool.false_eq_true, if_false]
          omega
        · intro m₂ hmissing hm₂
          rw [if_pos rfl, uint_next ha.le]
          rw [Mem.setPage_page] at hm₂
          have hm₂' := hm₂.rebase hback
          obtain ⟨s₁, hs₁⟩ : ∃ s₁, s₁ = (s.addTable (PDX a)).setUser a
            (some (V2P p ||| (PTE_W ||| PTE_U) ||| PTE_P, Bytes.zero)) := ⟨_, rfl⟩
          have hneed : s₁.need l = (s.addTable (PDX a)).need l := by
            rw [hs₁, Space.need_setUser]
          rw [← hs₁] at hm₂'
          refine ih hm₂' haligned' (by omega) (by omega) (by omega) ?_ ?_ ?_
          all_goals rw [← hl]
          · rintro ⟨x, hx, huser⟩
            refine hremap ⟨x, List.mem_cons_of_mem _ hx, ?_⟩
            have hxa : x ≠ a := fun heq => hal (heq ▸ hx)
            rw [hs₁, Space.setUser_of_ne _ hxa] at huser
            exact huser
          · intro m' s' hle hgrown hm'
            rw [hneed, List.length_drop] at hle
            rw [hneed, List.drop_drop] at hm'
            have hcost : s.need (a :: l) = s.missing a + (s.addTable (PDX a)).need l + 1 := by
              rw [Space.need]
              omega
            rw [hcost, List.drop_succ_cons, List.length_cons] at hok
            rw [hs₁] at hgrown
            refine hok m' s' (by omega) (hgrown.cons hal ⟨p, List.mem_cons_self, rfl⟩ ?_) hm'
            rintro _ _ ⟨q, hq, hv⟩
            exact ⟨q, List.mem_cons_of_mem _ (List.mem_of_mem_drop hq), hv⟩
          · intro m' free'' s' hlt' hcleared hm'
            rw [Space.need] at hfail
            rw [hneed, List.length_drop] at hlt'
            rw [hs₁] at hcleared
            refine hfail m' free'' s' ?_ (hcleared.of_setUser hmem) hm'
            rw [List.length_cons]
            omega
    · intro hge
      rw [pages_of_le (Nat.not_lt.mp hge)] at hok
      exact hok m s (Nat.zero_le _) .nil h

theorem wp_allocuvm {oldsz newsz : Nat} {Q : Nat → Mem → Prop} (h : Shows st base m d free rest s)
    (hE : KfreeStops img st E) (hbig : KERNBASE ≤ newsz → Q 0 m)
    (hless : newsz < KERNBASE → newsz < oldsz → Q oldsz m)
    (hremap : (∃ x ∈ pages (PGROUNDUP oldsz) newsz, s.user x ≠ none) → ∀ m, E .remap m)
    (hok : ∀ m' s', newsz < KERNBASE → oldsz ≤ newsz →
      s.need (pages (PGROUNDUP oldsz) newsz) ≤ free.length →
      s.Grown s' free (pages (PGROUNDUP oldsz) newsz) →
      Shows st base m' d (free.drop (s.need (pages (PGROUNDUP oldsz) newsz))) rest s' → Q newsz m')
    (hfail : ∀ m' free' s', newsz < KERNBASE → oldsz ≤ newsz →
      free.length < s.need (pages (PGROUNDUP oldsz) newsz) →
      s.Cleared s' (pages (PGROUNDUP oldsz) newsz) → Shows st base m' d free' rest s' → Q 0 m') :
    wp (allocuvm img d oldsz newsz) Q E m := by
  unfold allocuvm
  refine wp_ite hbig fun hsz => wp_ite (hless (Nat.not_le.mp hsz)) fun hle => ?_
  have hsz' := Nat.not_le.mp hsz
  have hle' := Nat.not_lt.mp hle
  have hround : oldsz ≤ PGROUNDUP oldsz := by
    unfold PGROUNDUP uint PGSIZE
    unfold KERNBASE at hsz'
    omega
  refine wp_allocuvmLoop hsz' hE _ h (PGROUNDUP_aligned oldsz) (Nat.le_refl _) hround ?_ hremap
    (fun m' s' => hok m' s' hsz' hle') fun m' free' s' => hfail m' free' s' hsz' hle'
  unfold PGSIZE
  omega

end Shows

/-! ### The two functions on memory -/

/-- Every page is in one place, and is the allocator's. -/
structure Sound (img : Image) (m : Mem) (d : Nat) (free rest : List Nat) : Prop where
  list : m.FreeList free
  nodup : (free ++ (rest ++ m.owned d)).Nodup
  usable : ∀ v ∈ free ++ (rest ++ m.owned d), IsPage v ∧ img.Usable v

/-- The pages of others and the kernel half are as they were. -/
structure Undisturbed (m m' : Mem) (d : Nat) (rest : List Nat) : Prop where
  rest : ∀ p ∈ rest, m'.page p = m.page p
  kernel : ∀ x, KERNBASE ≤ x → x < 2 ^ 32 → x % PGSIZE = 0 → m'.mapping d x = m.mapping d x

/-- The present user pages are those below `sz`. -/
def Mem.UserBelow (m : Mem) (d sz : Nat) : Prop :=
  ∀ x < KERNBASE, x % PGSIZE = 0 → (m.mapping d x ≠ none ↔ x < PGROUNDUP sz)

/-- The space that a directory shows. -/
def Mem.space (m : Mem) (d : Nat) : Space := ⟨fun i => (m.table d i).isSome, m.user d, m.mapping d⟩

theorem Sound.shows (h : Sound img m d free rest) :
    ∃ st : Stock, (∀ v ∈ st.pages, img.Usable v) ∧ Shows st m m d free rest (m.space d) := by
  let st : Stock := ⟨free ++ (rest ++ m.owned d), h.nodup, fun v hv => (h.usable v hv).1⟩
  refine ⟨st, fun v hv => (h.usable v hv).2, h.list, List.Perm.refl _, fun _ _ => rfl, ?_, ?_, ?_⟩
  · exact fun _ _ => rfl
  · exact fun _ _ _ => rfl
  · exact fun _ _ _ _ => rfl

theorem Shows.sound (h : Shows st base m d free rest s) (husable : ∀ v ∈ st.pages, img.Usable v) :
    Sound img m d free rest :=
  ⟨h.list, h.nodup, fun v hv => ⟨h.isPage hv, husable v (h.mem_stock hv)⟩⟩

theorem Shows.undisturbed {base : Mem} (h : Shows st base m d free rest s)
    (hs : s.kernel = base.mapping d) : Undisturbed base m d rest :=
  ⟨h.kept, fun x hx hx' haligned => (h.kernel x hx hx' haligned).trans (congrFun hs x)⟩

theorem lt_PGROUNDUP {x n : Nat} (hx : x % PGSIZE = 0) (hn : n ≤ KERNBASE) :
    x < PGROUNDUP n ↔ x < n := by
  unfold PGROUNDUP uint PGSIZE
  unfold PGSIZE at hx
  unfold KERNBASE at hn
  omega

theorem pages_PGROUNDUP {lo hi : Nat} (hlo : lo % PGSIZE = 0) (hhi : hi ≤ KERNBASE) :
    pages lo (PGROUNDUP hi) = pages lo hi := by
  have hlen : (PGROUNDUP hi - lo + PGSIZE - 1) / PGSIZE = (hi - lo + PGSIZE - 1) / PGSIZE := by
    unfold PGROUNDUP uint PGSIZE
    unfold PGSIZE at hlo
    unfold KERNBASE at hhi
    omega
  unfold pages
  rw [hlen]

/-- Two user addresses never share a page. -/
theorem Sound.mapping_inj {x y e e' : Nat} (h : Sound img m d free rest) (hx : x < KERNBASE)
    (hy : y < KERNBASE) (hx' : x % PGSIZE = 0) (hy' : y % PGSIZE = 0) (hmx : m.mapping d x = some e)
    (hmy : m.mapping d y = some e') (hpage : pageOf e = pageOf e') : x = y :=
  Mem.mapping_inj (List.nodup_append.mp (List.nodup_append.mp h.nodup).2.1).2.1 hx hy hx'
    hy' hmx hmy
    hpage

/-- `allocuvm` adds the pages from the old size to the new one, or runs out of
pages and adds none. -/
theorem Sound.grow (h : Sound img m d free rest) (hle : oldsz ≤ newsz) (hlt : newsz < KERNBASE)
    (hbelow : m.UserBelow d oldsz) :
    ∃ r m' free', allocuvm img d oldsz newsz m = (.ok r, m') ∧ Sound img m' d free' rest ∧
      Undisturbed m m' d rest ∧
      (r = newsz ∧
        (m.space d).need (pages (PGROUNDUP oldsz) (PGROUNDUP newsz)) ≤ free.length ∧
        (∃ f : Nat → Nat, Set.InjOn f {x | x ∈ pages (PGROUNDUP oldsz) (PGROUNDUP newsz)} ∧
          ∀ x ∈ pages (PGROUNDUP oldsz) (PGROUNDUP newsz),
            f x ∈ free ∧ m'.user d x = some (userPte (f x), Bytes.zero)) ∧
        (∀ x < KERNBASE, x % PGSIZE = 0 → x ∉ pages (PGROUNDUP oldsz) (PGROUNDUP newsz) →
          m'.user d x = m.user d x) ∨
      r = 0 ∧ free.length < (m.space d).need (pages (PGROUNDUP oldsz) (PGROUNDUP newsz)) ∧
        ∀ x < KERNBASE, x % PGSIZE = 0 → m'.user d x = m.user d x) := by
  obtain ⟨st, husable, hshows⟩ := h.shows
  rw [pages_PGROUNDUP (PGROUNDUP_aligned oldsz) (Nat.le_of_lt hlt)]
  have hmem : ∀ x, x ∈ pages (PGROUNDUP oldsz) newsz ↔
      x % PGSIZE = 0 ∧ PGROUNDUP oldsz ≤ x ∧ x < newsz :=
    fun x => mem_pages (PGROUNDUP_aligned oldsz)
  have hfresh : ∀ x ∈ pages (PGROUNDUP oldsz) newsz, (m.space d).user x = none := by
    intro x hx
    obtain ⟨haligned, hlow, hhigh⟩ := (hmem x).mp hx
    by_contra hne
    have hmap : m.mapping d x ≠ none := fun hnone => hne (Mem.user_eq_none.mpr hnone)
    exact absurd ((hbelow x (by omega) haligned).mp hmap) (by omega)
  have hrun : wp (allocuvm img d oldsz newsz) (fun r m' => ∃ free' s',
      Shows st m m' d free' rest s' ∧
      (r = newsz ∧ (m.space d).need (pages (PGROUNDUP oldsz) newsz) ≤ free.length ∧
        (m.space d).Grown s' free (pages (PGROUNDUP oldsz) newsz) ∨
      r = 0 ∧ free.length < (m.space d).need (pages (PGROUNDUP oldsz) newsz) ∧
        (m.space d).Cleared s' (pages (PGROUNDUP oldsz) newsz))) (fun _ _ => False) m := by
    refine hshows.wp_allocuvm (kfreeStops_of_usable husable) ?_ ?_ ?_ ?_ ?_
    · intro hbig
      omega
    · intro _ hless
      omega
    · rintro ⟨x, hx, hne⟩
      exact absurd (hfresh x hx) hne
    · intro m' s' _ _ hneed hgrown hm'
      exact ⟨_, s', hm', Or.inl ⟨rfl, hneed, hgrown⟩⟩
    · intro m' free' s' _ _ hneed hcleared hm'
      exact ⟨free', s', hm', Or.inr ⟨rfl, hneed, hcleared⟩⟩
  obtain ⟨r, m', heq, free', s', hm', hcases⟩ := exists_of_wp hrun
  refine ⟨r, m', free', heq, hm'.sound husable, ?_, ?_⟩
  · rcases hcases with ⟨-, -, hgrown⟩ | ⟨-, -, hcleared⟩
    · exact hm'.undisturbed hgrown.kernel
    · exact hm'.undisturbed hcleared.kernel
  · rcases hcases with ⟨hr, hneed, hgrown⟩ | ⟨hr, hneed, hcleared⟩
    · refine Or.inl ⟨hr, hneed, ?_, ?_⟩
      · have hnew : ∀ x ∈ pages (PGROUNDUP oldsz) newsz,
            ∃ p ∈ free, m'.user d x = some (userPte p, Bytes.zero) := by
          intro x hx
          obtain ⟨haligned, -, hhigh⟩ := (hmem x).mp hx
          rw [hm'.user x (by omega) haligned]
          exact hgrown.new x hx
        choose! f hf hfuser using hnew
        refine ⟨f, ?_, fun x hx => ⟨hf x hx, hfuser x hx⟩⟩
        intro x hx y hy hxy
        obtain ⟨hxa, -, hxlt⟩ := (hmem x).mp hx
        obtain ⟨hya, -, hylt⟩ := (hmem y).mp hy
        refine (hm'.sound husable).mapping_inj (by omega) (by omega) hxa hya
          (Mem.user_eq_some.mp (hfuser x hx)).1 (Mem.user_eq_some.mp (hfuser y hy)).1 ?_
        rw [hxy]
      · intro x hx haligned hout
        rw [hm'.user x hx haligned]
        exact hgrown.old x hout
    · refine Or.inr ⟨hr, hneed, fun x hx haligned => ?_⟩
      rw [hm'.user x hx haligned]
      by_cases hin : x ∈ pages (PGROUNDUP oldsz) newsz
      · rw [hcleared.new x hin]
        exact (hfresh x hin).symm
      · exact hcleared.old x hin

/-- `deallocuvm` frees and unmaps what is present in its range. -/
theorem Sound.shrink (h : Sound img m d free rest) (hlt : newsz < oldsz) (hsz : oldsz ≤ KERNBASE) :
    ∃ m' free', deallocuvm img d oldsz newsz m = (.ok newsz, m') ∧ Sound img m' d free' rest ∧
      Undisturbed m m' d rest ∧
      free' = ((m.space d).pagesAt (pages (PGROUNDUP newsz) oldsz)).reverse ++ free ∧
      ∀ x < KERNBASE, x % PGSIZE = 0 → m'.user d x =
        if PGROUNDUP newsz ≤ x ∧ x < oldsz then none else m.user d x := by
  obtain ⟨st, husable, hshows⟩ := h.shows
  obtain ⟨l, hl⟩ : ∃ l, l = pages (PGROUNDUP newsz) oldsz := ⟨_, rfl⟩
  have hrun : wp (deallocuvm img d oldsz newsz) (fun r m' => r = newsz ∧
      Shows st m m' d (((m.space d).pagesAt l).reverse ++ free) rest ((m.space d).unmap l))
      (fun _ _ => False) m := by
    refine hshows.wp_deallocuvm hsz (kfreeStops_of_usable husable) ?_ ?_
    · intro hle
      omega
    · intro m' _ hm'
      rw [hl]
      exact ⟨rfl, hm'⟩
  obtain ⟨r, m', heq, hr, hm'⟩ := exists_of_wp hrun
  rw [hr] at heq
  refine ⟨m', _, heq, hm'.sound husable, hm'.undisturbed rfl, by rw [hl], ?_⟩
  intro x hx haligned
  rw [hm'.user x hx haligned]
  have hmem : x ∈ l ↔ PGROUNDUP newsz ≤ x ∧ x < oldsz := by
    rw [hl, mem_pages (PGROUNDUP_aligned newsz)]
    exact and_iff_right haligned
  by_cases hin : x ∈ l
  · rw [if_pos (hmem.mp hin)]
    exact ((m.space d).cleared_unmap l).new x hin
  · rw [if_neg fun hrange => hin (hmem.mpr hrange)]
    exact ((m.space d).cleared_unmap l).old x hin

/-- `allocuvm` adds the pages from the old size to the new one, or runs out of
pages and adds none; `deallocuvm` is a visit to each page address in its range,
and frees and unmaps what is present there. -/
theorem allocuvm_deallocuvm_spec (img : Image) :
    (∀ {m : Mem} {d oldsz newsz : Nat} {free rest : List Nat}, Sound img m d free rest →
      oldsz ≤ newsz → newsz < KERNBASE → m.UserBelow d oldsz →
      ∃ r m' free', allocuvm img d oldsz newsz m = (.ok r, m') ∧ Sound img m' d free' rest ∧
        Undisturbed m m' d rest ∧
        (r = newsz ∧
          (m.space d).need (pages (PGROUNDUP oldsz) (PGROUNDUP newsz)) ≤ free.length ∧
          (∃ f : Nat → Nat, Set.InjOn f {x | x ∈ pages (PGROUNDUP oldsz) (PGROUNDUP newsz)} ∧
            ∀ x ∈ pages (PGROUNDUP oldsz) (PGROUNDUP newsz),
              f x ∈ free ∧ m'.user d x = some (userPte (f x), Bytes.zero)) ∧
          (∀ x < KERNBASE, x % PGSIZE = 0 → x ∉ pages (PGROUNDUP oldsz) (PGROUNDUP newsz) →
            m'.user d x = m.user d x) ∨
        r = 0 ∧ free.length < (m.space d).need (pages (PGROUNDUP oldsz) (PGROUNDUP newsz)) ∧
          ∀ x < KERNBASE, x % PGSIZE = 0 → m'.user d x = m.user d x)) ∧
    ∀ {d oldsz newsz : Nat}, newsz < oldsz → oldsz ≤ KERNBASE →
      (deallocuvm img d oldsz newsz = do
        forEach (visitPage img d) (pages (PGROUNDUP newsz) oldsz)
        return newsz) ∧
      ∀ {m : Mem} {free rest : List Nat}, Sound img m d free rest →
        ∃ m' free', deallocuvm img d oldsz newsz m = (.ok newsz, m') ∧ Sound img m' d free' rest ∧
          Undisturbed m m' d rest ∧
          free' = ((m.space d).pagesAt (pages (PGROUNDUP newsz) oldsz)).reverse ++ free ∧
          ∀ x < KERNBASE, x % PGSIZE = 0 → m'.user d x =
            if PGROUNDUP newsz ≤ x ∧ x < oldsz then none else m.user d x := by
  constructor
  · intro m d oldsz newsz free rest h hle hlt hbelow
    exact h.grow hle hlt hbelow
  · intro d oldsz newsz hlt hsz
    exact ⟨deallocuvm_eq hsz hlt, fun h => h.shrink hlt hsz⟩

/-! ### A small machine -/

def smallImage : Image := ⟨0x80108000, 0x80200000, by decide, by decide, by decide⟩

/-- A process with an empty directory, and four free pages. -/
def smallMachine : State where
  mem :=
    { freelist := 0x80401000
      page := fun v =>
        if 0x80401000 ≤ v ∧ v < 0x80404000 then Bytes.zero.setNum 4 0 (v + PGSIZE) else Bytes.zero }
  dirs := [0x80400000]

def smallFree : List Nat := [0x80401000, 0x80402000, 0x80403000, 0x80404000]

theorem smallMachine_list : smallMachine.mem.FreeList smallFree := by
  have hnext : smallMachine.mem.next 0x80401000 = 0x80402000 ∧
      smallMachine.mem.next 0x80402000 = 0x80403000 ∧
      smallMachine.mem.next 0x80403000 = 0x80404000 ∧ smallMachine.mem.next 0x80404000 = 0 := by
    decide +kernel
  exact ⟨rfl, hnext⟩

theorem Mem.table_of_zero (hzero : m.page d = Bytes.zero) (i : Nat) : m.table d i = none := by
  unfold Mem.table Mem.word
  rw [hzero, Bytes.num_zero, entry_zero]

theorem Mem.mapping_of_zero (hzero : m.page d = Bytes.zero) (x : Nat) : m.mapping d x = none := by
  unfold Mem.mapping Mem.pte Mem.slot
  rw [Mem.table_of_zero hzero]
  rfl

/-- A cleared page is a directory that owns itself alone. -/
theorem Mem.owned_of_zero (hzero : m.page d = Bytes.zero) : m.owned d = [d] := by
  have htables : m.tables d = [] := by
    refine List.flatMap_eq_nil_iff.mpr fun i _ => ?_
    rw [Mem.table_of_zero hzero, Option.toList_none]
  have huser : m.userPages d = [] := by
    refine List.flatMap_eq_nil_iff.mpr fun i _ => List.flatMap_eq_nil_iff.mpr fun j _ => ?_
    unfold Mem.leaf
    rw [Mem.table_of_zero hzero, Option.bind_none, Option.toList_none]
  rw [Mem.owned, htables, huser, List.append_nil]

theorem smallMachine_sound : Sound smallImage smallMachine.mem 0x80400000 smallFree [] := by
  have hown : smallMachine.mem.owned 0x80400000 = [0x80400000] := Mem.owned_of_zero rfl
  refine ⟨smallMachine_list, ?_, ?_⟩
  · rw [hown]
    decide
  · rw [hown]
    unfold IsPage
    decide +kernel

theorem smallMachine_below : smallMachine.mem.UserBelow 0x80400000 0 := by
  intro x _ _
  rw [Mem.mapping_of_zero rfl, PGROUNDUP_zero]
  exact iff_of_false (fun hne => hne rfl) (Nat.not_lt_zero x)

theorem allocuvm_deallocuvm_smallMachine :
    ∃ m' free', allocuvm smallImage 0x80400000 0 8192 smallMachine.mem = (.ok 8192, m') ∧
      Sound smallImage m' 0x80400000 free' [] ∧
      (∃ p ∈ smallFree, m'.user 0x80400000 4096 = some (userPte p, Bytes.zero)) ∧
      ∃ m'' free'', deallocuvm smallImage 0x80400000 8192 4096 m' = (.ok 4096, m'') ∧
        Sound smallImage m'' 0x80400000 free'' [] ∧ m''.user 0x80400000 4096 = none := by
  obtain ⟨halloc, hdealloc⟩ := allocuvm_deallocuvm_spec smallImage
  have hpages : pages (PGROUNDUP 0) (PGROUNDUP 8192) = [0, 4096] := by decide +kernel
  obtain ⟨r, m', free', heq, hsound, -, hcases⟩ := halloc smallMachine_sound (Nat.zero_le 8192)
    (by decide) smallMachine_below
  rw [hpages] at hcases
  have hneed : (smallMachine.mem.space 0x80400000).need [0, 4096] = 3 := by decide +kernel
  obtain ⟨-, hdealloc⟩ := hdealloc (d := 0x80400000) (show 4096 < 8192 by decide) (by decide)
  obtain ⟨m'', free'', heq', hsound', -, -, huser⟩ := hdealloc hsound
  rcases hcases with ⟨hr, -, ⟨f, -, hf⟩, -⟩ | ⟨-, hlt, -⟩
  · obtain ⟨hp, hnew⟩ := hf 4096 (by decide)
    rw [hr] at heq
    refine ⟨m', free', heq, hsound, ⟨f 4096, hp, hnew⟩, m'', free'', heq', hsound', ?_⟩
    rw [huser 4096 (by decide) (by decide), if_pos (by decide +kernel)]
  · rw [hneed] at hlt
    exact absurd hlt (by decide)

end Xv6.Vm
