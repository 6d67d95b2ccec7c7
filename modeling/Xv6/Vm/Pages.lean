import Mathlib.Data.List.Perm.Basic
import Mathlib.Data.List.Nodup
import Mathlib.Data.List.Range
import Xv6.Lib.Segment
import Xv6.Vm.Basic

/-!
Who has which page. A page directory owns its own page, the page tables its
entries point to and the pages that the present entries of the user half map.
The lemmas say what storing one entry does to these lists of pages.
-/

namespace Xv6.Vm

open Prog

/-! ### Words of memory -/

section Words

variable (m : Mem)

@[simp] theorem Mem.setPage_freelist (p : Nat) (b : Page) :
    (m.setPage p b).freelist = m.freelist := rfl

@[simp] theorem Mem.setPage_page (p : Nat) (b : Page) : (m.setPage p b).page p = b := set_self ..

variable {p q : Nat}

theorem Mem.setPage_page_of_ne (b : Page) (h : q ≠ p) : (m.setPage p b).page q = m.page q :=
  set_of_ne _ _ h

@[simp] theorem Mem.setWord_freelist (p i v : Nat) : (m.setWord p i v).freelist = m.freelist := rfl

theorem Mem.setWord_page_of_ne (i v : Nat) (h : q ≠ p) : (m.setWord p i v).page q = m.page q :=
  set_of_ne _ _ h

theorem Mem.word_setWord_of_page_ne (i j v : Nat) (h : q ≠ p) :
    (m.setWord p i v).word q j = m.word q j := by
  unfold word
  rw [m.setWord_page_of_ne i v h]

theorem Mem.word_setWord_self (p : Nat) {i v : Nat} (hi : i < 1024) (hv : v < 2 ^ 32) :
    (m.setWord p i v).word p i = v := by
  unfold word setWord
  rw [setPage_page, Bytes.num_setNum_self _ _ (by unfold PGSIZE; omega)]
  exact Nat.mod_eq_of_lt hv

theorem Mem.word_setWord_of_ne (p v : Nat) {i j : Nat} (h : j ≠ i) :
    (m.setWord p i v).word p j = m.word p j := by
  unfold word setWord
  rw [setPage_page, Bytes.num_setNum_of_disjoint _ _ (by omega)]

end Words

/-! ### Entries -/

/-- The page that a directory or table entry points to, if it is present. -/
def entry (e : Nat) : Option Nat := if Present e then some (P2V (PTE_ADDR e)) else none

/-- The kernel address of a physical page. -/
def IsPage (v : Nat) : Prop := v % PGSIZE = 0 ∧ 0 < v ∧ v < 2 ^ 32

theorem present_or_right (a : Nat) {b : Nat} (h : Present b) : Present (a ||| b) := by
  unfold Present at *
  rw [Nat.and_or_distrib_right]
  intro hzero
  exact h (Nat.or_eq_zero_iff.mp hzero).2

theorem entry_zero : entry 0 = none := by decide

theorem entry_or {v f : Nat} (hv : IsPage v) (hf : f < PGSIZE) (hpresent : Present f) :
    entry (V2P v ||| f) = some v := by
  obtain ⟨haligned, -, hlt⟩ := hv
  have hflags : f / 2 ^ 12 = 0 := Nat.div_eq_of_lt hf
  have haddr : PTE_ADDR (V2P v ||| f) = V2P v := by
    unfold PTE_ADDR
    rw [show PGSIZE = 2 ^ 12 from rfl, Nat.or_div_two_pow, hflags, Nat.or_zero]
    unfold V2P uint KERNBASE PGSIZE at *
    omega
  have hback : P2V (V2P v) = v := by
    unfold P2V V2P uint KERNBASE
    omega
  unfold entry
  rw [if_pos (present_or_right _ hpresent), haddr, hback]

theorem V2P_lt (v : Nat) : V2P v < 2 ^ 32 := by
  unfold V2P
  exact Nat.mod_lt _ (by decide)

theorem or_lt {v f : Nat} (hf : f < PGSIZE) : V2P v ||| f < 2 ^ 32 :=
  Nat.or_lt_two_pow (V2P_lt v) (lt_trans hf (by decide))

theorem PDX_lt (va : Nat) : PDX va < 1024 := Nat.mod_lt _ (by decide)

theorem PDX_KERNBASE : PDX KERNBASE = 512 := by
  unfold PDX KERNBASE NPDENTRIES
  norm_num

theorem PTX_lt (va : Nat) : PTX va < 1024 := Nat.mod_lt _ (by decide)

/-! ### What a directory owns -/

def Mem.table (m : Mem) (d i : Nat) : Option Nat := entry (m.word d i)

/-- The page mapped by entry `j` of the directory's table `i`. -/
def Mem.leaf (m : Mem) (d i j : Nat) : Option Nat := (m.table d i).bind fun t => entry (m.word t j)

/-- The word of entry `j` of the directory's table `i`, if it has this table. -/
def Mem.slot (m : Mem) (d i j : Nat) : Option Nat := (m.table d i).map fun t => m.word t j

def Mem.tables (m : Mem) (d : Nat) : List Nat :=
  (List.range NPDENTRIES).flatMap fun i => (m.table d i).toList

/-- The present pages below `KERNBASE`, in the order of their addresses. -/
def Mem.userPages (m : Mem) (d : Nat) : List Nat :=
  (List.range (PDX KERNBASE)).flatMap fun i =>
    (List.range NPTENTRIES).flatMap fun j => (m.leaf d i j).toList

def Mem.owned (m : Mem) (d : Nat) : List Nat := d :: (m.tables d ++ m.userPages d)

/-- A table of lists that is changed in one place: what the place lost and what
it got make the difference. -/
theorem perm_flatMap_of_eq_except {ι α : Type} {l : List ι} {f g : ι → List α} {a : ι}
    {x y : List α} (hl : l.Nodup) (ha : a ∈ l) (hother : ∀ b ∈ l, b ≠ a → g b = f b)
    (hat : (x ++ g a).Perm (y ++ f a)) : (x ++ l.flatMap g).Perm (y ++ l.flatMap f) := by
  induction l with
  | nil => cases ha
  | cons b l ih =>
    obtain ⟨hb, hl⟩ := List.nodup_cons.mp hl
    rw [List.flatMap_cons, List.flatMap_cons]
    by_cases hab : a = b
    · subst hab
      have hsame : l.flatMap g = l.flatMap f :=
        List.flatMap_congr fun c hc => hother c (List.mem_cons_of_mem _ hc) fun h => hb (h ▸ hc)
      rw [hsame, ← List.append_assoc, ← List.append_assoc]
      exact hat.append_right _
    · rw [hother b List.mem_cons_self (Ne.symm hab)]
      have htail := ih hl ((List.mem_cons.mp ha).resolve_left hab)
        fun c hc => hother c (List.mem_cons_of_mem _ hc)
      calc (x ++ (f b ++ l.flatMap g)).Perm (f b ++ (x ++ l.flatMap g)) :=
            List.perm_append_comm_assoc ..
        List.Perm _ (f b ++ (y ++ l.flatMap f)) := htail.append_left _
        List.Perm _ (y ++ (f b ++ l.flatMap f)) := List.perm_append_comm_assoc ..

/-- An element of lists that are put together without repetition comes from one
of them only. -/
theorem eq_of_nodup_flatMap {ι α : Type} {l : List ι} {f : ι → List α} (h : (l.flatMap f).Nodup)
    {a b : ι} (ha : a ∈ l) (hb : b ∈ l) {x : α} (hxa : x ∈ f a) (hxb : x ∈ f b) : a = b := by
  have hpair := (List.nodup_flatMap.mp h).2
  have : Std.Symm (Function.onFun List.Disjoint f) := ⟨fun _ _ hdisj => List.Disjoint.symm hdisj⟩
  by_contra hne
  exact hpair.forall ha hb hne hxa hxb

namespace Mem

variable {m m' : Mem} {d i j t : Nat}

theorem mem_tables : t ∈ m.tables d ↔ ∃ i < NPDENTRIES, m.table d i = some t := by
  simp [tables]

theorem mem_owned_of_table (hi : i < NPDENTRIES) (h : m.table d i = some t) : t ∈ m.tables d :=
  mem_tables.mpr ⟨i, hi, h⟩

theorem table_congr (h : m'.page d = m.page d) (i : Nat) : m'.table d i = m.table d i := by
  unfold table word
  rw [h]

theorem leaf_eq_slot : m.leaf d i j = (m.slot d i j).bind entry := by
  unfold leaf slot
  cases m.table d i with
  | none => rw [Option.bind_none, Option.map_none, Option.bind_none]
  | some t => rw [Option.bind_some, Option.map_some, Option.bind_some]

section

variable (h : ∀ p ∈ d :: m.tables d, m'.page p = m.page p) (hi : i < NPDENTRIES) (j : Nat)
include h hi

/-- What a directory owns is written in its own page and in its tables. -/
theorem slot_congr : m'.slot d i j = m.slot d i j := by
  unfold slot
  rw [table_congr (h d List.mem_cons_self)]
  cases ht : m.table d i with
  | none => rfl
  | some t =>
    rw [Option.map_some, Option.map_some]
    unfold word
    rw [h t (List.mem_cons_of_mem _ (mem_owned_of_table hi ht))]

theorem leaf_congr : m'.leaf d i j = m.leaf d i j := by
  rw [leaf_eq_slot, leaf_eq_slot, slot_congr h hi]

end

theorem lt_of_mem_user (hi : i ∈ List.range (PDX KERNBASE)) : i < NPDENTRIES := by
  rw [List.mem_range, PDX_KERNBASE] at hi
  unfold NPDENTRIES
  omega

theorem owned_congr (h : ∀ p ∈ d :: m.tables d, m'.page p = m.page p) : m'.owned d = m.owned d := by
  have htables : m'.tables d = m.tables d :=
    List.flatMap_congr fun i _ => by rw [table_congr (h d List.mem_cons_self)]
  have huser : m'.userPages d = m.userPages d := by
    refine List.flatMap_congr fun i hi => List.flatMap_congr fun j _ => ?_
    rw [leaf_congr h (lt_of_mem_user hi)]
  unfold owned
  rw [htables, huser]

theorem flatMap_owned_congr {dirs : List Nat}
    (h : ∀ d ∈ dirs, ∀ p ∈ m.owned d, m'.page p = m.page p) :
    dirs.flatMap m'.owned = dirs.flatMap m.owned := by
  refine List.flatMap_congr fun d hd => owned_congr fun p hp => h d hd p ?_
  rcases List.mem_cons.mp hp with rfl | hp
  · exact List.mem_cons_self
  · exact List.mem_cons_of_mem _ (List.mem_append_left _ hp)

theorem ne_of_table (h : (m.owned d).Nodup) (hi : i < NPDENTRIES) (ht : m.table d i = some t) :
    t ≠ d := by
  rintro rfl
  exact (List.nodup_cons.mp h).1 (List.mem_append_left _ (mem_owned_of_table hi ht))

variable {i' e : Nat}

/-- No two entries of a directory point to the same table. -/
theorem table_inj (h : (m.owned d).Nodup) (hi : i < NPDENTRIES) (hi' : i' < NPDENTRIES)
    (ht : m.table d i = some t) (ht' : m.table d i' = some t) : i = i' := by
  have hnodup : (m.tables d).Nodup := (List.nodup_append.mp (List.nodup_cons.mp h).2).1
  refine eq_of_nodup_flatMap hnodup (List.mem_range.mpr hi) (List.mem_range.mpr hi') (x := t) ?_ ?_
  · rw [ht]
    exact List.mem_singleton_self _
  · rw [ht']
    exact List.mem_singleton_self _

/-! ### Writing an entry -/

/-- A new, empty table. -/
theorem slot_setPde (h : (m.owned d).Nodup) (hi : i < NPDENTRIES) (htd : t ≠ d)
    (hzero : m.page t = Bytes.zero) (he : entry e = some t) (hlt : e < 2 ^ 32)
    (hi' : i' < NPDENTRIES) (j : Nat) :
    (m.setWord d i e).slot d i' j = if i' = i then some 0 else m.slot d i' j := by
  unfold slot table
  by_cases hii : i' = i
  · subst hii
    rw [if_pos rfl, m.word_setWord_self d hi hlt, he, Option.map_some,
      m.word_setWord_of_page_ne _ _ _ htd]
    unfold word
    rw [hzero, Bytes.num_zero]
  · rw [if_neg hii, m.word_setWord_of_ne d e hii]
    cases ht : entry (m.word d i') with
    | none => rfl
    | some u =>
      have hud : u ≠ d := ne_of_table h hi' ht
      rw [Option.map_some, Option.map_some, m.word_setWord_of_page_ne _ _ _ hud]

theorem leaf_setPde (h : (m.owned d).Nodup) (hi : i < NPDENTRIES) (htd : t ≠ d)
    (hnone : m.table d i = none) (hzero : m.page t = Bytes.zero) (he : entry e = some t)
    (hlt : e < 2 ^ 32) (hi' : i' < NPDENTRIES) (j : Nat) :
    (m.setWord d i e).leaf d i' j = m.leaf d i' j := by
  rw [leaf_eq_slot, slot_setPde h hi htd hzero he hlt hi']
  split
  · next hii =>
      unfold leaf
      rw [hii, hnone, Option.bind_some, entry_zero, Option.bind_none]
  · rw [leaf_eq_slot]

theorem userPages_congr (h : ∀ i < NPDENTRIES, ∀ j, m'.leaf d i j = m.leaf d i j) :
    m'.userPages d = m.userPages d := by
  refine List.flatMap_congr fun i hi => List.flatMap_congr fun j _ => ?_
  rw [h i (lt_of_mem_user hi)]

theorem owned_setPde (h : (m.owned d).Nodup) (hi : i < NPDENTRIES) (htd : t ≠ d)
    (hnone : m.table d i = none) (hzero : m.page t = Bytes.zero) (he : entry e = some t)
    (hlt : e < 2 ^ 32) : ((m.setWord d i e).owned d).Perm (t :: m.owned d) := by
  have htables : ([] ++ (m.setWord d i e).tables d).Perm ([t] ++ m.tables d) := by
    refine perm_flatMap_of_eq_except List.nodup_range (List.mem_range.mpr hi) ?_ ?_
    · intro i' _ hne
      unfold table
      rw [m.word_setWord_of_ne d e hne]
    · rw [hnone]
      unfold table
      rw [m.word_setWord_self d hi hlt, he]
      exact List.Perm.refl _
  have huser : (m.setWord d i e).userPages d = m.userPages d :=
    userPages_congr fun i' hi' j => leaf_setPde h hi htd hnone hzero he hlt hi' j
  unfold owned
  rw [huser]
  rw [List.nil_append] at htables
  calc (d :: ((m.setWord d i e).tables d ++ m.userPages d)).Perm
        (d :: ([t] ++ m.tables d ++ m.userPages d)) := (htables.append_right _).cons d
    _ = d :: t :: (m.tables d ++ m.userPages d) := by
        rw [List.append_assoc, List.singleton_append]
    List.Perm _ (t :: d :: (m.tables d ++ m.userPages d)) := List.Perm.swap t d _

theorem table_setPte (h : (m.owned d).Nodup) (hi : i < NPDENTRIES) (ht : m.table d i = some t)
    (j e i' : Nat) : (m.setWord t j e).table d i' = m.table d i' := by
  unfold table
  rw [m.word_setWord_of_page_ne _ _ _ (Ne.symm (ne_of_table h hi ht))]

section

variable (h : (m.owned d).Nodup) (hi : i < NPDENTRIES) (hj : j < NPTENTRIES)
  (ht : m.table d i = some t) (hlt : e < 2 ^ 32) (hi' : i' < NPDENTRIES) (j' : Nat)
include h hi hj ht hlt hi'

/-- An entry of a table is the entry of one address only. -/
theorem slot_setPte :
    (m.setWord t j e).slot d i' j' = if i' = i ∧ j' = j then some e else m.slot d i' j' := by
  unfold slot
  rw [table_setPte h hi ht]
  by_cases hii : i' = i
  · subst hii
    rw [ht, Option.map_some, Option.map_some]
    by_cases hjj : j' = j
    · subst hjj
      rw [if_pos ⟨rfl, rfl⟩, m.word_setWord_self t hj hlt]
    · rw [if_neg (fun hboth => hjj hboth.2), m.word_setWord_of_ne t e hjj]
  · rw [if_neg (fun hboth => hii hboth.1)]
    cases ht' : m.table d i' with
    | none => rfl
    | some u =>
      have hut : u ≠ t := by
        rintro rfl
        exact hii (table_inj h hi' hi ht' ht)
      rw [Option.map_some, Option.map_some, m.word_setWord_of_page_ne _ _ _ hut]

theorem leaf_setPte :
    (m.setWord t j e).leaf d i' j' = if i' = i ∧ j' = j then entry e else m.leaf d i' j' := by
  rw [leaf_eq_slot, slot_setPte h hi hj ht hlt hi']
  split
  · rw [Option.bind_some]
  · rw [leaf_eq_slot]

end

/-- Storing an entry of the user half adds what it maps and drops what the old
entry mapped. -/
theorem owned_setPte (h : (m.owned d).Nodup) (hi : i < PDX KERNBASE) (hj : j < NPTENTRIES)
    (ht : m.table d i = some t) (hlt : e < 2 ^ 32) :
    ((m.leaf d i j).toList ++ (m.setWord t j e).owned d).Perm ((entry e).toList ++ m.owned d) := by
  have hmem : i ∈ List.range (PDX KERNBASE) := List.mem_range.mpr hi
  have hi' : i < NPDENTRIES := lt_of_mem_user hmem
  have htables : (m.setWord t j e).tables d = m.tables d :=
    List.flatMap_congr fun i' _ => by rw [table_setPte h hi' ht]
  have huser : ((m.leaf d i j).toList ++ (m.setWord t j e).userPages d).Perm
      ((entry e).toList ++ m.userPages d) := by
    refine perm_flatMap_of_eq_except List.nodup_range hmem ?_ ?_
    · intro i₁ hi₁ hne
      refine List.flatMap_congr fun j₁ _ => ?_
      rw [leaf_setPte h hi' hj ht hlt (lt_of_mem_user hi₁), if_neg (fun hboth => hne hboth.1)]
    · refine perm_flatMap_of_eq_except List.nodup_range (List.mem_range.mpr hj) ?_ ?_
      · intro j₁ _ hne
        rw [leaf_setPte h hi' hj ht hlt hi', if_neg (fun hboth => hne hboth.2)]
      · rw [leaf_setPte h hi' hj ht hlt hi', if_pos ⟨rfl, rfl⟩]
        exact List.perm_append_comm
  unfold owned
  rw [htables, ← List.cons_append, ← List.cons_append]
  calc ((m.leaf d i j).toList ++ (d :: m.tables d ++ (m.setWord t j e).userPages d)).Perm
        (d :: m.tables d ++ ((m.leaf d i j).toList ++ (m.setWord t j e).userPages d)) :=
        List.perm_append_comm_assoc ..
    List.Perm _ (d :: m.tables d ++ ((entry e).toList ++ m.userPages d)) := huser.append_left _
    List.Perm _ ((entry e).toList ++ (d :: m.tables d ++ m.userPages d)) :=
        List.perm_append_comm_assoc ..

/-- The kernel half maps nothing that is owned. -/
theorem owned_setPte_kernel (h : (m.owned d).Nodup) (hi : i < NPDENTRIES)
    (hkernel : PDX KERNBASE ≤ i) (hj : j < NPTENTRIES) (ht : m.table d i = some t)
    (hlt : e < 2 ^ 32) : (m.setWord t j e).owned d = m.owned d := by
  have htables : (m.setWord t j e).tables d = m.tables d :=
    List.flatMap_congr fun i' _ => by rw [table_setPte h hi ht]
  have huser : (m.setWord t j e).userPages d = m.userPages d := by
    refine List.flatMap_congr fun i₁ hi₁ => List.flatMap_congr fun j₁ _ => ?_
    have hne : i₁ ≠ i := by
      have := List.mem_range.mp hi₁
      omega
    rw [leaf_setPte h hi hj ht hlt (lt_of_mem_user hi₁), if_neg (fun hboth => hne hboth.1)]
  unfold owned
  rw [htables, huser]

end Mem

/-! ### The stock -/

/-- The pages of a memory, each of them once. -/
structure Stock where
  pages : List Nat
  nodup : pages.Nodup
  isPage : ∀ v ∈ pages, IsPage v

/-- From the head of the free list, its pages lead to the null pointer. -/
def Mem.FreeList (m : Mem) (free : List Nat) : Prop := Seg m.next m.freelist free 0

end Xv6.Vm
