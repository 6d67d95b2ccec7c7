import Xv6.Vm.Pages

/-!
Address spaces. To a process a page directory is a function from page addresses
to entries, and for the user half to the bytes of the pages they point to. A
directory in memory shows such a space; the stores of `vm.c` to entries, tables
and pages change the space in one place each and leave the free list and the
pages of everybody else alone.
-/

namespace Xv6.Vm

open Prog

/-! ### Page addresses -/

/-- The page addresses from `lo` on that are below `hi`. -/
def pages (lo hi : Nat) : List Nat :=
  (List.range ((hi - lo + PGSIZE - 1) / PGSIZE)).map fun k => lo + k * PGSIZE

variable {lo hi : Nat}

theorem pages_of_le (h : hi ≤ lo) : pages lo hi = [] := by
  have hzero : (hi - lo + PGSIZE - 1) / PGSIZE = 0 := by
    unfold PGSIZE
    omega
  rw [pages, hzero]
  rfl

theorem pages_of_lt (h : lo < hi) : pages lo hi = lo :: pages (lo + PGSIZE) hi := by
  have hsucc : (hi - lo + PGSIZE - 1) / PGSIZE =
      (hi - (lo + PGSIZE) + PGSIZE - 1) / PGSIZE + 1 := by
    unfold PGSIZE
    omega
  rw [pages, hsucc, List.range_succ_eq_map, List.map_cons, List.map_map, pages, Nat.zero_mul,
    Nat.add_zero]
  congr 1
  refine List.map_congr_left fun k _ => ?_
  simp only [Function.comp_apply, Nat.succ_eq_add_one]
  ring

theorem uint_next {a : Nat} (ha : a ≤ KERNBASE) : uint (a + PGSIZE) = a + PGSIZE := by
  unfold uint PGSIZE
  unfold KERNBASE at ha
  omega

theorem mem_pages {x : Nat} (hlo : lo % PGSIZE = 0) :
    x ∈ pages lo hi ↔ x % PGSIZE = 0 ∧ lo ≤ x ∧ x < hi := by
  rw [pages, List.mem_map]
  constructor
  · rintro ⟨k, hk, rfl⟩
    rw [List.mem_range] at hk
    unfold PGSIZE at *
    omega
  · rintro ⟨haligned, hle, hlt⟩
    refine ⟨(x - lo) / PGSIZE, List.mem_range.mpr ?_, ?_⟩
    all_goals
      unfold PGSIZE at *
      omega

theorem nodup_pages (lo hi : Nat) : (pages lo hi).Nodup := by
  refine List.nodup_range.map fun j k hjk => ?_
  unfold PGSIZE at hjk
  omega

/-- Two page addresses with the same entry are the same. -/
theorem slot_inj {x y : Nat} (hx : x % PGSIZE = 0) (hy : y % PGSIZE = 0) (hx' : x < 2 ^ 32)
    (hy' : y < 2 ^ 32) : PDX x = PDX y ∧ PTX x = PTX y ↔ x = y := by
  constructor
  · rintro ⟨hpdx, hptx⟩
    unfold PDX NPDENTRIES at hpdx
    unfold PTX NPTENTRIES at hptx
    unfold PGSIZE at hx hy
    omega
  · rintro rfl
    exact ⟨rfl, rfl⟩

theorem KERNBASE_lt : KERNBASE < 2 ^ 32 := by decide

theorem PDX_lt_of_user {x : Nat} (h : x < KERNBASE) : PDX x < PDX KERNBASE := by
  rw [PDX_KERNBASE]
  unfold PDX NPDENTRIES
  unfold KERNBASE at h
  omega

theorem PDX_le_of_kernel {x : Nat} (h : KERNBASE ≤ x) (hx : x < 2 ^ 32) : PDX KERNBASE ≤ PDX x := by
  rw [PDX_KERNBASE]
  unfold PDX NPDENTRIES
  unfold KERNBASE at h
  omega

/-! ### Entries in memory -/

/-- The page an entry points to. -/
def pageOf (e : Nat) : Nat := P2V (PTE_ADDR e)

theorem entry_of_present {e : Nat} (h : Present e) : entry e = some (pageOf e) := if_pos h

theorem present_of_entry {e v : Nat} (h : entry e = some v) : Present e ∧ pageOf e = v := by
  unfold entry at h
  split at h
  · next hpresent => exact ⟨hpresent, Option.some.inj h⟩
  · cases h

namespace Mem

/-- What `walkpgdir` finds for `va`. -/
def pte (m : Mem) (d va : Nat) : Option Nat := m.slot d (PDX va) (PTX va)

/-- The entry for `va`, if it is present. -/
def mapping (m : Mem) (d va : Nat) : Option Nat := (m.pte d va).filter fun e => Present e

/-- The present entry for `va` and the bytes of its page. -/
def user (m : Mem) (d va : Nat) : Option (Nat × Page) :=
  (m.mapping d va).map fun e => (e, m.page (pageOf e))

variable {m m' : Mem} {d i j t x y e : Nat}

theorem mapping_eq_some : m.mapping d x = some e ↔ m.pte d x = some e ∧ Present e := by
  unfold mapping
  rw [Option.filter_eq_some_iff, decide_eq_true_eq]

theorem pte_of_table (ht : m.table d (PDX x) = some t) : m.pte d x = some (m.word t (PTX x)) := by
  unfold pte slot
  rw [ht, Option.map_some]

theorem table_of_mapping (h : m.mapping d x = some e) :
    ∃ t, m.table d (PDX x) = some t ∧ m.word t (PTX x) = e := by
  obtain ⟨hpte, -⟩ := mapping_eq_some.mp h
  exact Option.map_eq_some_iff.mp hpte

theorem leaf_eq_mapping : m.leaf d (PDX x) (PTX x) = (m.mapping d x).map pageOf := by
  unfold leaf mapping pte slot
  cases m.table d (PDX x) with
  | none => rfl
  | some t =>
    rw [Option.bind_some, Option.map_some, Option.filter_some]
    by_cases hpresent : Present (m.word t (PTX x))
    · rw [entry_of_present hpresent, if_pos (decide_eq_true hpresent), Option.map_some]
    · rw [if_neg (by simpa using hpresent), Option.map_none]
      exact if_neg hpresent

theorem user_eq_some {b : Page} :
    m.user d x = some (e, b) ↔ m.mapping d x = some e ∧ m.page (pageOf e) = b := by
  unfold user
  rw [Option.map_eq_some_iff]
  constructor
  · rintro ⟨e', hmap, heq⟩
    obtain ⟨rfl, rfl⟩ := Prod.mk.inj heq
    exact ⟨hmap, rfl⟩
  · rintro ⟨hmap, rfl⟩
    exact ⟨e, hmap, rfl⟩

theorem user_eq_none : m.user d x = none ↔ m.mapping d x = none := Option.map_eq_none_iff

/-- A page of the user half belongs to the directory. -/
theorem pageOf_mem_userPages (hx : x < KERNBASE) (h : m.mapping d x = some e) :
    pageOf e ∈ m.userPages d := by
  have hleaf : m.leaf d (PDX x) (PTX x) = some (pageOf e) := by
    rw [leaf_eq_mapping, h, Option.map_some]
  refine List.mem_flatMap.mpr ⟨PDX x, List.mem_range.mpr (PDX_lt_of_user hx), ?_⟩
  refine List.mem_flatMap.mpr ⟨PTX x, List.mem_range.mpr (PTX_lt x), ?_⟩
  rw [hleaf]
  exact List.mem_singleton_self _

theorem pageOf_mem_owned (hx : x < KERNBASE) (h : m.mapping d x = some e) : pageOf e ∈ m.owned d :=
  List.mem_cons_of_mem _ (List.mem_append_right _ (pageOf_mem_userPages hx h))

theorem table_mem_owned (hi : i < NPDENTRIES) (h : m.table d i = some t) : t ∈ m.owned d :=
  List.mem_cons_of_mem _ (List.mem_append_left _ (mem_owned_of_table hi h))

theorem tables_disjoint_userPages (h : (m.owned d).Nodup) {p : Nat} (hp : p ∈ d :: m.tables d) :
    p ∉ m.userPages d := by
  intro hu
  rcases List.mem_cons.mp hp with rfl | hp
  · exact (List.nodup_cons.mp h).1 (List.mem_append_right _ hu)
  · exact (List.nodup_append.mp (List.nodup_cons.mp h).2).2.2 p hp p hu rfl

section

variable (h : (m.owned d).Nodup) (hx : x < KERNBASE)
include h hx

theorem pageOf_ne_table (hmap : m.mapping d x = some e) (hi : i < NPDENTRIES)
    (ht : m.table d i = some t) : pageOf e ≠ t := by
  rintro rfl
  exact tables_disjoint_userPages h (List.mem_cons_of_mem _ (mem_owned_of_table hi ht))
    (pageOf_mem_userPages hx hmap)

theorem pageOf_ne_dir (hmap : m.mapping d x = some e) : pageOf e ≠ d := by
  rintro rfl
  exact tables_disjoint_userPages h List.mem_cons_self (pageOf_mem_userPages hx hmap)

/-- A page is mapped at one address only. -/
theorem mapping_inj {e' : Nat} (hy : y < KERNBASE) (hx' : x % PGSIZE = 0) (hy' : y % PGSIZE = 0)
    (hmx : m.mapping d x = some e) (hmy : m.mapping d y = some e') (hpage : pageOf e = pageOf e') :
    x = y := by
  have huser : (m.userPages d).Nodup := (List.nodup_append.mp (List.nodup_cons.mp h).2).2.1
  have hleafx : pageOf e ∈ (m.leaf d (PDX x) (PTX x)).toList := by
    rw [leaf_eq_mapping, hmx]
    exact List.mem_singleton_self _
  have hleafy : pageOf e ∈ (m.leaf d (PDX y) (PTX y)).toList := by
    rw [leaf_eq_mapping, hmy, hpage]
    exact List.mem_singleton_self _
  have hpx := List.mem_range.mpr (PTX_lt x)
  have hpy := List.mem_range.mpr (PTX_lt y)
  have hpdx : PDX x = PDX y := eq_of_nodup_flatMap huser (List.mem_range.mpr (PDX_lt_of_user hx))
    (List.mem_range.mpr (PDX_lt_of_user hy)) (List.mem_flatMap.mpr ⟨_, hpx, hleafx⟩)
    (List.mem_flatMap.mpr ⟨_, hpy, hleafy⟩)
  rw [← hpdx] at hleafy
  have hinner := (List.nodup_flatMap.mp huser).1 _ (List.mem_range.mpr (PDX_lt_of_user hx))
  have hptx : PTX x = PTX y := eq_of_nodup_flatMap hinner hpx hpy hleafx hleafy
  exact (slot_inj hx' hy' (hx.trans KERNBASE_lt) (hy.trans KERNBASE_lt)).mp ⟨hpdx, hptx⟩

end

/-! ### Stores -/

theorem mapping_congr (h : ∀ p ∈ d :: m.tables d, m'.page p = m.page p) (x : Nat) :
    m'.mapping d x = m.mapping d x := by
  unfold mapping pte
  rw [slot_congr h (PDX_lt x)]

theorem user_of_mapping (hmap : m'.mapping d x = m.mapping d x)
    (hpage : ∀ e, m.mapping d x = some e → m'.page (pageOf e) = m.page (pageOf e)) :
    m'.user d x = m.user d x := by
  unfold user
  rw [hmap]
  cases he : m.mapping d x with
  | none => rfl
  | some e => rw [Option.map_some, Option.map_some, hpage e he]

theorem user_congr (h : ∀ p ∈ m.owned d, m'.page p = m.page p) (hx : x < KERNBASE) :
    m'.user d x = m.user d x := by
  have hmap : m'.mapping d x = m.mapping d x := by
    refine mapping_congr (fun p hp => h p ?_) x
    exact List.mem_cons.mpr ((List.mem_cons.mp hp).imp_right (List.mem_append_left _))
  exact user_of_mapping hmap fun e he => h _ (pageOf_mem_owned hx he)

theorem mapping_setPde (h : (m.owned d).Nodup) (hi : i < NPDENTRIES) (htd : t ≠ d)
    (hnone : m.table d i = none) (hzero : m.page t = Bytes.zero) (he : entry e = some t)
    (hlt : e < 2 ^ 32) (x : Nat) : (m.setWord d i e).mapping d x = m.mapping d x := by
  unfold mapping pte
  rw [slot_setPde h hi htd hzero he hlt (PDX_lt x)]
  split
  · next hx =>
      unfold slot
      rw [hx, hnone]
      rfl
  · rfl

theorem mapping_setPte {a : Nat} (h : (m.owned d).Nodup) (ht : m.table d (PDX a) = some t)
    (hlt : e < 2 ^ 32) (ha : a % PGSIZE = 0) (ha' : a < 2 ^ 32) (hx : x % PGSIZE = 0)
    (hx' : x < 2 ^ 32) :
    (m.setWord t (PTX a) e).mapping d x =
      if x = a then (if Present e then some e else none) else m.mapping d x := by
  unfold mapping pte
  rw [slot_setPte h (PDX_lt a) (PTX_lt a) ht hlt (PDX_lt x)]
  simp only [slot_inj hx ha hx' ha']
  split
  · rw [Option.filter_some]
    simp only [decide_eq_true_eq]
  · rfl

end Mem

/-- Memory after `kfree(v)`. -/
def Mem.freed (m : Mem) (v : Nat) : Mem where
  freelist := v
  page := set m.page v (junk.setNum 4 0 m.freelist)

theorem Mem.freed_page_of_ne {m : Mem} {v q : Nat} (h : q ≠ v) : (m.freed v).page q = m.page q :=
  set_of_ne _ _ h

theorem Mem.FreeList.congr {m m' : Mem} {free : List Nat} (h : m.FreeList free)
    (hlist : m'.freelist = m.freelist) (hpage : ∀ p ∈ free, m'.page p = m.page p) :
    m'.FreeList free := by
  unfold Mem.FreeList
  rw [hlist]
  refine Seg.congr h fun q hq => ?_
  unfold Mem.next Mem.word
  rw [hpage q hq]

theorem Mem.FreeList.lt {m : Mem} {free : List Nat} (h : m.FreeList free)
    (hpages : ∀ p ∈ free, IsPage p) : m.freelist < 2 ^ 32 := by
  cases free with
  | nil =>
    have hzero : m.freelist = 0 := h
    omega
  | cons r free =>
    rw [h.1]
    exact (hpages r List.mem_cons_self).2.2

theorem Mem.FreeList.freed {m : Mem} {v : Nat} {free : List Nat} (h : m.FreeList free)
    (hpages : ∀ p ∈ free, IsPage p) (hv : v ∉ free) : (m.freed v).FreeList (v :: free) := by
  have hnext : (m.freed v).next v = m.freelist := by
    unfold Mem.next Mem.word Mem.freed
    simp only [set_self]
    rw [Bytes.num_setNum_self junk _ (by decide)]
    exact Nat.mod_eq_of_lt (h.lt hpages)
  refine ⟨rfl, ?_⟩
  rw [hnext]
  refine Seg.congr h fun q hq => ?_
  unfold Mem.next Mem.word
  rw [Mem.freed_page_of_ne]
  rintro rfl
  exact hv hq

/-! ### Spaces -/

/-- Which page tables a directory has, the entries and bytes of its user pages
and the entries of its kernel half. -/
structure Space where
  table : Nat → Bool
  user : Nat → Option (Nat × Page)
  kernel : Nat → Option Nat

namespace Space

variable (s : Space)

def addTable (i : Nat) : Space := { s with table := set s.table i true }

def setUser (a : Nat) (v : Option (Nat × Page)) : Space := { s with user := set s.user a v }

def setKernel (a e : Nat) : Space := { s with kernel := set s.kernel a (some e) }

variable {a x i i' : Nat} {v : Option (Nat × Page)}

theorem setUser_self : (s.setUser a v).user a = v := set_self ..

theorem setUser_of_ne (h : x ≠ a) : (s.setUser a v).user x = s.user x := set_of_ne _ _ h

theorem setKernel_self (e : Nat) : (s.setKernel a e).kernel a = some e := set_self ..

theorem setKernel_of_ne (e : Nat) (h : x ≠ a) : (s.setKernel a e).kernel x = s.kernel x :=
  set_of_ne _ _ h

theorem addTable_self : (s.addTable i).table i = true := set_self ..

theorem addTable_of_ne (h : i' ≠ i) : (s.addTable i).table i' = s.table i' := set_of_ne _ _ h

end Space

section

variable {st : Stock} {base m : Mem} {v : Nat} {free rest : List Nat}

theorem Mem.setPage_agree {p r : Nat} (b : Page) (h : p ≠ r → m.page p = base.page p) :
    (m.setPage r b).page p = (base.setPage r b).page p := by
  by_cases hp : p = r
  · rw [hp, setPage_page, setPage_page]
  · rw [setPage_page_of_ne _ b hp, setPage_page_of_ne _ b hp, h hp]

/-- Memory when no directory is looked at: the pages of `rest` are in use and
hold what they hold in `base`. -/
structure Pool (st : Stock) (base m : Mem) (free rest : List Nat) : Prop where
  list : m.FreeList free
  all : (free ++ rest).Perm st.pages
  kept : ∀ p ∈ rest, m.page p = base.page p

namespace Pool

section

variable (h : Pool st base m free rest)
include h

theorem nodup : (free ++ rest).Nodup := h.all.nodup_iff.mpr st.nodup

theorem ne_of_free {p q : Nat} (hp : p ∈ free) (hq : q ∈ rest) : p ≠ q :=
  (List.nodup_append.mp h.nodup).2.2 p hp q hq

theorem isPage {p : Nat} (hp : p ∈ free ++ rest) : IsPage p :=
  st.isPage p (h.all.subset hp)

theorem rebase {base' : Mem} (hbase : ∀ p ∈ rest, base.page p = base'.page p) :
    Pool st base' m free rest :=
  ⟨h.list, h.all, fun p hp => (h.kept p hp).trans (hbase p hp)⟩

theorem perm {rest' : List Nat} (hrest : rest'.Perm rest) : Pool st base m free rest' :=
  ⟨h.list, (hrest.append_left free).trans h.all, fun p hp => h.kept p (hrest.subset hp)⟩

end

/-- The first free page is somebody else's, whatever it is filled with. -/
theorem kept_head {r : Nat} (h : Pool st base m (r :: free) rest) (base' : Mem) (b : Page) :
    ∀ p ∈ rest, (base'.setPage r b).page p = base'.page p := fun _ hp =>
  base'.setPage_page_of_ne b (h.ne_of_free List.mem_cons_self hp).symm

theorem take {r : Nat} (h : Pool st base m (r :: free) rest) (b : Page) :
    Pool st (base.setPage r b) { (m.setPage r b) with freelist := m.next r } free (r :: rest) := by
  have hr : r ∉ free := (List.nodup_cons.mp h.nodup).1 ∘ List.mem_append_left _
  refine ⟨?_, List.perm_middle.trans h.all, fun p hp => Mem.setPage_agree b fun hne => ?_⟩
  · refine Seg.congr h.list.2 fun q hq => ?_
    unfold Mem.next Mem.word
    rw [m.setPage_page_of_ne b]
    rintro rfl
    exact hr hq
  · exact h.kept p ((List.mem_cons.mp hp).resolve_left hne)

theorem give (h : Pool st base m free (v :: rest)) : Pool st base (m.freed v) (v :: free) rest := by
  have hv : v ∉ free := fun hv => h.ne_of_free hv List.mem_cons_self rfl
  have hrest : v ∉ rest := (List.nodup_cons.mp (List.nodup_append.mp h.nodup).2.1).1
  refine ⟨?_, List.perm_middle.symm.trans h.all, ?_⟩
  · exact h.list.freed (fun p hp => h.isPage (List.mem_append_left _ hp)) hv
  · intro p hp
    rw [Mem.freed_page_of_ne, h.kept p (List.mem_cons_of_mem _ hp)]
    rintro rfl
    exact hrest hp

end Pool

end

/-- The directory shows the space. The pages of `rest` are somebody else's and
hold what they hold in `base`. -/
structure Shows (st : Stock) (base m : Mem) (d : Nat) (free rest : List Nat) (s : Space) :
    Prop where
  list : m.FreeList free
  all : (free ++ (rest ++ m.owned d)).Perm st.pages
  kept : ∀ p ∈ rest, m.page p = base.page p
  table : ∀ i < NPDENTRIES, (m.table d i).isSome = s.table i
  user : ∀ x < KERNBASE, x % PGSIZE = 0 → m.user d x = s.user x
  kernel : ∀ x, KERNBASE ≤ x → x < 2 ^ 32 → x % PGSIZE = 0 → m.mapping d x = s.kernel x

namespace Shows

variable {st : Stock} {base base' m m' : Mem} {d t a e v r : Nat} {free free' rest rest' : List Nat}
  {s : Space}

theorem pool (h : Shows st base m d free rest s) : Pool st m m free (rest ++ m.owned d) :=
  ⟨h.list, h.all, fun _ _ => rfl⟩

theorem nodup (h : Shows st base m d free rest s) : (free ++ (rest ++ m.owned d)).Nodup :=
  h.pool.nodup

theorem owned_nodup (h : Shows st base m d free rest s) : (m.owned d).Nodup :=
  (List.nodup_append.mp (List.nodup_append.mp h.nodup).2.1).2.1

variable {p q : Nat}

section

variable (h : Shows st base m d free rest s)
include h

theorem ne_of_free (hp : p ∈ free) (hq : q ∈ rest ++ m.owned d) : p ≠ q :=
  h.pool.ne_of_free hp hq

theorem ne_of_rest (hp : p ∈ rest) (hq : q ∈ m.owned d) : p ≠ q :=
  (List.nodup_append.mp (List.nodup_append.mp h.nodup).2.1).2.2 p hp q hq

theorem ne_of_free_owned (hp : p ∈ free) (hq : q ∈ m.owned d) : p ≠ q :=
  h.ne_of_free hp (List.mem_append_right _ hq)

theorem mem_stock (hp : p ∈ free ++ (rest ++ m.owned d)) : p ∈ st.pages :=
  h.all.subset hp

theorem isPage (hp : p ∈ free ++ (rest ++ m.owned d)) : IsPage p :=
  h.pool.isPage hp

theorem mapping_of_user (ha : a < KERNBASE) (haligned : a % PGSIZE = 0) {b : Page}
    (hs : s.user a = some (e, b)) : m.mapping d a = some e ∧ m.page (pageOf e) = b := by
  rw [← h.user a ha haligned] at hs
  exact Mem.user_eq_some.mp hs

theorem mapping_eq_none (ha : a < KERNBASE) (haligned : a % PGSIZE = 0) :
    m.mapping d a = none ↔ s.user a = none := by
  rw [← h.user a ha haligned, Mem.user_eq_none]

theorem table_eq_none (x : Nat) : m.table d (PDX x) = none ↔ s.table (PDX x) = false := by
  rw [← h.table _ (PDX_lt x), Option.isSome_eq_false_iff, Option.isNone_iff_eq_none]

/-- Stores that leave the directory, its tables and its pages alone. -/
theorem of_pages (howned : ∀ p ∈ m.owned d, m'.page p = m.page p) (hlist : m'.FreeList free')
    (hall : (free' ++ rest').Perm (free ++ rest)) (hkept : ∀ p ∈ rest', m'.page p = base'.page p) :
    Shows st base' m' d free' rest' s := by
  have htables : ∀ p ∈ d :: m.tables d, m'.page p = m.page p := fun p hp =>
    howned p (List.mem_cons.mpr ((List.mem_cons.mp hp).imp_right (List.mem_append_left _)))
  refine ⟨hlist, ?_, hkept, ?_, ?_, ?_⟩
  · rw [Mem.owned_congr htables, ← List.append_assoc]
    refine (hall.append_right _).trans ?_
    rw [List.append_assoc]
    exact h.all
  · intro i hi
    rw [Mem.table_congr (howned d List.mem_cons_self), h.table i hi]
  · intro x hx haligned
    rw [Mem.user_congr howned hx, h.user x hx haligned]
  · intro x hx hx' haligned
    rw [Mem.mapping_congr htables, h.kernel x hx hx' haligned]

theorem rebase (hbase : ∀ p ∈ rest, base.page p = base'.page p) : Shows st base' m d free rest s :=
  h.of_pages (fun _ _ => rfl) h.list (List.Perm.refl _) fun p hp => (h.kept p hp).trans (hbase p hp)

end

/-- The first free page goes to the caller, who fills it. -/
theorem take (h : Shows st base m d (r :: free) rest s) (b : Page) :
    Shows st (base.setPage r b) { (m.setPage r b) with freelist := m.next r } d free
      (r :: rest) s := by
  refine h.of_pages (fun p hp => ?_) (h.pool.take b).list List.perm_middle fun p hp => ?_
  · exact m.setPage_page_of_ne b (h.ne_of_free_owned List.mem_cons_self hp).symm
  · exact Mem.setPage_agree b fun hne => h.kept p ((List.mem_cons.mp hp).resolve_left hne)

/-- A page of `rest` is freed. -/
theorem give (h : Shows st base m d free (v :: rest) s) :
    Shows st base (m.freed v) d (v :: free) rest s := by
  have hgiven : Pool st m (m.freed v) (v :: free) (rest ++ m.owned d) := Pool.give h.pool
  refine h.of_pages (fun p hp => ?_) hgiven.list List.perm_middle.symm fun p hp => ?_
  · exact hgiven.kept p (List.mem_append_right _ hp)
  · rw [hgiven.kept p (List.mem_append_left _ hp), h.kept p (List.mem_cons_of_mem _ hp)]

/-- A store to a page of somebody else, who agrees. -/
theorem setRest (h : Shows st base m d free rest s) (hv : v ∈ rest) (b : Page) :
    Shows st (base.setPage v b) (m.setPage v b) d free rest s := by
  have hpage : ∀ q ≠ v, (m.setPage v b).page q = m.page q := fun q hq => m.setPage_page_of_ne b hq
  refine h.of_pages ?_ ?_ (List.Perm.refl _) fun p hp => Mem.setPage_agree b fun _ => h.kept p hp
  · intro p hp
    exact hpage p (h.ne_of_rest hv hp).symm
  · refine h.list.congr rfl fun p hp => hpage p ?_
    exact h.ne_of_free hp (List.mem_append_left _ hv)

/-- A new entry for a user page: what it maps leaves `rest`, what the old entry
mapped is put there. -/
theorem setPte (rest' : List Nat) (base' : Mem) (h : Shows st base m d free rest s)
    (ha : a < KERNBASE) (haligned : a % PGSIZE = 0) (ht : m.table d (PDX a) = some t)
    (he : e < 2 ^ 32)
    (hrest : (rest' ++ (entry e).toList).Perm (rest ++ (m.leaf d (PDX a) (PTX a)).toList))
    (hkept : ∀ p ∈ rest', m.page p = base'.page p) :
    Shows st base' (m.setWord t (PTX a) e) d free rest'
      (s.setUser a (if Present e then some (e, m.page (pageOf e)) else none)) := by
  have hown : t ∈ m.owned d := Mem.table_mem_owned (PDX_lt a) ht
  have hpage : ∀ q ≠ t, (m.setWord t (PTX a) e).page q = m.page q := fun q hq =>
    m.setWord_page_of_ne _ _ hq
  have ha' : a < 2 ^ 32 := ha.trans KERNBASE_lt
  have hne : ∀ p ∈ rest' ++ (entry e).toList, p ≠ t := by
    intro p hp
    rcases List.mem_append.mp (hrest.subset hp) with hp | hp
    · exact h.ne_of_rest hp hown
    · rw [Mem.leaf_eq_mapping, Option.mem_toList, Option.map_eq_some_iff] at hp
      obtain ⟨e', hmap, rfl⟩ := hp
      exact Mem.pageOf_ne_table h.owned_nodup ha hmap (PDX_lt a) ht
  refine ⟨?_, ?_, ?_, ?_, ?_, ?_⟩
  · exact h.list.congr rfl fun p hp => hpage p (h.ne_of_free_owned hp hown)
  · have howned := Mem.owned_setPte h.owned_nodup (PDX_lt_of_user ha) (PTX_lt a) ht he
    refine List.Perm.trans (List.Perm.append_left free ?_) h.all
    generalize (m.leaf d (PDX a) (PTX a)).toList = old at howned hrest
    generalize (entry e).toList = new at howned hrest
    refine (List.perm_append_left_iff old).mp ?_
    calc (old ++ (rest' ++ (m.setWord t (PTX a) e).owned d)).Perm
          (rest' ++ (old ++ (m.setWord t (PTX a) e).owned d)) := List.perm_append_comm_assoc ..
      List.Perm _ (rest' ++ (new ++ m.owned d)) := howned.append_left _
      _ = rest' ++ new ++ m.owned d := (List.append_assoc ..).symm
      List.Perm _ (rest ++ old ++ m.owned d) := hrest.append_right _
      List.Perm _ (old ++ rest ++ m.owned d) := List.perm_append_comm.append_right _
      _ = old ++ (rest ++ m.owned d) := List.append_assoc ..
  · intro p hp
    rw [hpage p (hne p (List.mem_append_left _ hp)), hkept p hp]
  · intro i hi
    rw [Mem.table_setPte h.owned_nodup (PDX_lt a) ht, h.table i hi]
    rfl
  · intro x hx hxa
    have hmap := Mem.mapping_setPte h.owned_nodup ht he haligned ha' hxa (hx.trans KERNBASE_lt)
    by_cases hxeq : x = a
    · subst hxeq
      rw [if_pos rfl] at hmap
      rw [Space.setUser_self]
      by_cases hpresent : Present e
      · rw [if_pos hpresent] at hmap ⊢
        rw [entry_of_present hpresent] at hne
        refine Mem.user_eq_some.mpr ⟨hmap, hpage _ (hne _ ?_)⟩
        exact List.mem_append_right _ (List.mem_singleton_self _)
      · rw [if_neg hpresent] at hmap ⊢
        exact Mem.user_eq_none.mpr hmap
    · rw [if_neg hxeq] at hmap
      rw [Space.setUser_of_ne _ hxeq, ← h.user x hx hxa]
      refine Mem.user_of_mapping hmap fun e' he' => hpage _ ?_
      exact Mem.pageOf_ne_table h.owned_nodup hx he' (PDX_lt a) ht
  · intro x hx hx' hxa
    rw [Mem.mapping_setPte h.owned_nodup ht he haligned ha' hxa hx', if_neg (by omega)]
    exact h.kernel x hx hx' hxa

/-- A new entry of the kernel half. -/
theorem setPteKernel (h : Shows st base m d free rest s) (ha : KERNBASE ≤ a) (ha' : a < 2 ^ 32)
    (haligned : a % PGSIZE = 0) (ht : m.table d (PDX a) = some t) (he : e < 2 ^ 32)
    (hpresent : Present e) :
    Shows st base (m.setWord t (PTX a) e) d free rest (s.setKernel a e) := by
  have hown : t ∈ m.owned d := Mem.table_mem_owned (PDX_lt a) ht
  have hpage : ∀ q ≠ t, (m.setWord t (PTX a) e).page q = m.page q := fun q hq =>
    m.setWord_page_of_ne _ _ hq
  have hmap : ∀ x < 2 ^ 32, x % PGSIZE = 0 → (m.setWord t (PTX a) e).mapping d x =
      if x = a then (if Present e then some e else none) else m.mapping d x := fun x hx hxa =>
    Mem.mapping_setPte h.owned_nodup ht he haligned ha' hxa hx
  refine ⟨?_, ?_, ?_, ?_, ?_, ?_⟩
  · exact h.list.congr rfl fun p hp => hpage p (h.ne_of_free_owned hp hown)
  · rw [Mem.owned_setPte_kernel h.owned_nodup (PDX_lt a) (PDX_le_of_kernel ha ha') (PTX_lt a) ht he]
    exact h.all
  · intro p hp
    rw [hpage p (h.ne_of_rest hp hown), h.kept p hp]
  · intro i hi
    rw [Mem.table_setPte h.owned_nodup (PDX_lt a) ht, h.table i hi]
    rfl
  · intro x hx hxa
    have hsame : (m.setWord t (PTX a) e).mapping d x = m.mapping d x := by
      rw [hmap x (hx.trans KERNBASE_lt) hxa, if_neg (by omega)]
    refine (Mem.user_of_mapping hsame fun e' he' => hpage _ ?_).trans (h.user x hx hxa)
    exact Mem.pageOf_ne_table h.owned_nodup hx he' (PDX_lt a) ht
  · intro x hx hx' hxa
    rw [hmap x hx' hxa, if_pos hpresent]
    by_cases hxeq : x = a
    · rw [if_pos hxeq, hxeq, Space.setKernel_self]
    · rw [if_neg hxeq, Space.setKernel_of_ne _ _ hxeq, h.kernel x hx hx' hxa]

/-- The entry of a page table. -/
def pdeFor (t : Nat) : Nat := V2P t ||| PTE_P ||| PTE_W ||| PTE_U

theorem pdeFor_lt (t : Nat) : pdeFor t < 2 ^ 32 := by
  unfold pdeFor
  rw [Nat.or_assoc, Nat.or_assoc]
  exact or_lt (by decide)

theorem entry_pdeFor (ht : IsPage t) : entry (pdeFor t) = some t := by
  unfold pdeFor
  rw [Nat.or_assoc, Nat.or_assoc]
  exact entry_or ht (by decide) (by decide)

/-- A cleared page becomes a page table. -/
theorem newTable {i : Nat} (h : Shows st base m d free (t :: rest) s) (hi : i < NPDENTRIES)
    (hnone : m.table d i = none) (hzero : m.page t = Bytes.zero) :
    Shows st base (m.setWord d i (pdeFor t)) d free rest (s.addTable i) := by
  have htd : t ≠ d := h.ne_of_rest List.mem_cons_self List.mem_cons_self
  have hpage : ∀ q ≠ d, (m.setWord d i (pdeFor t)).page q = m.page q := fun q hq =>
    m.setWord_page_of_ne _ _ hq
  have hentry : entry (pdeFor t) = some t :=
    entry_pdeFor (h.isPage (List.mem_append_right _ (List.mem_append_left _ List.mem_cons_self)))
  have hmap := Mem.mapping_setPde h.owned_nodup hi htd hnone hzero hentry (pdeFor_lt t)
  refine ⟨?_, ?_, ?_, ?_, ?_, ?_⟩
  · exact h.list.congr rfl fun p hp => hpage p (h.ne_of_free_owned hp List.mem_cons_self)
  · have howned := Mem.owned_setPde h.owned_nodup hi htd hnone hzero hentry (pdeFor_lt t)
    refine List.Perm.trans (List.Perm.append_left free ?_) h.all
    exact (howned.append_left rest).trans List.perm_middle
  · intro p hp
    rw [hpage p (h.ne_of_rest (List.mem_cons_of_mem _ hp) List.mem_cons_self),
      h.kept p (List.mem_cons_of_mem _ hp)]
  · intro i' hi'
    unfold Mem.table
    by_cases hii : i' = i
    · rw [hii, Space.addTable_self, m.word_setWord_self d hi (pdeFor_lt t), hentry,
        Option.isSome_some]
    · rw [Space.addTable_of_ne _ hii, m.word_setWord_of_ne d _ hii]
      exact h.table i' hi'
  · intro x hx hxa
    refine (Mem.user_of_mapping (hmap x) fun e he => hpage _ ?_).trans (h.user x hx hxa)
    exact Mem.pageOf_ne_dir h.owned_nodup hx he
  · intro x hx hx' hxa
    rw [hmap]
    exact h.kernel x hx hx' hxa

theorem table_newTable {i : Nat} (ht : IsPage t) (hi : i < NPDENTRIES) :
    (m.setWord d i (pdeFor t)).table d i = some t := by
  unfold Mem.table
  rw [m.word_setWord_self d hi (pdeFor_lt t), entry_pdeFor ht]

/-- A store to a page of the user half. -/
theorem store {b : Page} (h : Shows st base m d free rest s) (ha : a < KERNBASE)
    (haligned : a % PGSIZE = 0) (hs : s.user a = some (e, b)) (b' : Page) :
    Shows st base (m.setPage (pageOf e) b') d free rest (s.setUser a (some (e, b'))) := by
  obtain ⟨hmap, -⟩ := h.mapping_of_user ha haligned hs
  have hown := Mem.pageOf_mem_owned ha hmap
  have huser := Mem.pageOf_mem_userPages ha hmap
  have hpage : ∀ q ≠ pageOf e, (m.setPage (pageOf e) b').page q = m.page q := fun q hq =>
    m.setPage_page_of_ne b' hq
  have htables : ∀ p ∈ d :: m.tables d, (m.setPage (pageOf e) b').page p = m.page p := by
    intro p hp
    refine hpage p ?_
    rintro rfl
    exact Mem.tables_disjoint_userPages h.owned_nodup hp huser
  refine ⟨?_, ?_, ?_, ?_, ?_, ?_⟩
  · exact h.list.congr rfl fun p hp => hpage p (h.ne_of_free_owned hp hown)
  · rw [Mem.owned_congr htables]
    exact h.all
  · intro p hp
    rw [hpage p (h.ne_of_rest hp hown), h.kept p hp]
  · intro i hi
    rw [Mem.table_congr (htables d List.mem_cons_self), h.table i hi]
    rfl
  · intro x hx hxa
    have hsame : (m.setPage (pageOf e) b').mapping d x = m.mapping d x :=
      Mem.mapping_congr htables x
    by_cases hxeq : x = a
    · subst hxeq
      rw [Space.setUser_self]
      exact Mem.user_eq_some.mpr ⟨hsame.trans hmap, m.setPage_page ..⟩
    · rw [Space.setUser_of_ne _ hxeq, ← h.user x hx hxa]
      refine Mem.user_of_mapping hsame fun e' he' => hpage _ fun heq => hxeq ?_
      exact Mem.mapping_inj h.owned_nodup hx ha hxa haligned he' hmap heq
  · intro x hx hx' hxa
    rw [Mem.mapping_congr htables]
    exact h.kernel x hx hx' hxa

end Shows

end Xv6.Vm
