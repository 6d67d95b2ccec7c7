import Xv6.Proc.Table
import Xv6.Vm.Copy
import Xv6.Vm.Load

/-!
What `fork` does to memory: the child gets a kernel stack and a copy of its
parent's address space, or the slot and the pages go back.
-/

namespace Xv6.Vm

open Prog Ptable

/-- A slot of the process table with its memory. -/
structure Child extends Ptable.Proc where
  kstack : Nat
  pgdir : Nat
  sz : Nat

structure ForkState where
  mem : Mem
  proc : Slot → Child
  nextpid : Int

abbrev ForkM := Prog ForkState Panic

/-- The addresses of the assembly code that a new process starts in. -/
structure Entry where
  trapret : Nat
  forkret : Nat

section Definitions

variable (img : Image) (code : Entry)

def onMem {α : Type} (x : VmM α) : ForkM α := fun s => ((x s.mem).1, { s with mem := (x s.mem).2 })

def setChild (q : Slot) (f : Child → Child) : ForkM Unit :=
  modify fun s => { s with proc := set s.proc q (f (s.proc q)) }

/-- Where the trap frame is in a kernel stack: 76 bytes at its end. -/
def trapframe : Nat := 4020

/-- What `allocproc` puts on the new stack: the return address `trapret`, and
below it a context of five words, the last of which is `forkret`. -/
def stackFor (b : Page) : Page :=
  ((b.setNum 4 (trapframe - 4) code.trapret).splice (trapframe - 24) 20 fun _ => 0).setNum 4
    (trapframe - 8) code.forkret

def allocproc : ForkM (Option Slot) := do
  let s ← gets fun s => s
  match unusedSlot fun q => (s.proc q).toProc with
  | none => return none
  | some q => do
    setChild q fun x => { x with toProc := x.alloc s.nextpid }
    modify fun s => { s with nextpid := s.nextpid + 1 }
    let kstack ← onMem kalloc
    setChild q fun x => { x with kstack := kstack }
    if kstack = 0 then
      setChild q fun x => { x with state := .unused }
      return none
    else
      onMem (modify fun m => m.setPage kstack (stackFor code (m.page kstack)))
      return some q

/-- The child's trap frame is its parent's, but for `eax`. -/
def childFrame (parent b : Page) : Page :=
  (b.splice trapframe 76 fun i => parent.byte (trapframe + i)).setNum 4 (trapframe + 28) 0

/-- `fork`, without the open files, the working directory and the name. -/
def fork (p : Slot) : ForkM Int := do
  match ← allocproc code with
  | none => return -1
  | some np => do
    let cur ← gets fun s => s.proc p
    let pgdir ← onMem (copyuvm img cur.pgdir cur.sz)
    setChild np fun x => { x with pgdir := pgdir }
    let x ← gets fun s => s.proc np
    if pgdir = 0 then
      onMem (kfree img x.kstack)
      setChild np fun x => { x with kstack := 0, state := .unused }
      return -1
    else
      setChild np fun x => { x with sz := cur.sz, parent := some p }
      onMem (modify fun m => m.setPage x.kstack (childFrame (m.page cur.kstack) (m.page x.kstack)))
      setChild np fun x => { x with toProc := x.start }
      return x.pid

end Definitions

variable {img : Image} {code : Entry} {st : Stock} {base m m' : Mem} {d src sz : Nat}
  {free rest : List Nat} {s : Space}

/-! ### Pages enough -/

theorem V2P_inj {v w : Nat} (hv : v < 2 ^ 32) (hw : w < 2 ^ 32) (h : V2P v = V2P w) : v = w := by
  unfold V2P uint KERNBASE at h
  omega

/-- Physical memory is smaller than the user half of an address space, so that a
space without gaps ends in it. -/
theorem Sound.sz_lt (h : Sound img m src free rest)
    (hpresent : ∀ x, x % PGSIZE = 0 → x < sz → m.mapping src x ≠ none) : sz < KERNBASE := by
  by_contra hge
  have hpage : ∀ k ∈ Finset.range 524288, ∃ e, m.mapping src (k * PGSIZE) = some e := by
    intro k hk
    rw [Finset.mem_range] at hk
    refine Option.ne_none_iff_exists'.mp (hpresent _ (Nat.mul_mod_left _ _) ?_)
    unfold PGSIZE
    unfold KERNBASE at hge
    omega
  choose! e he using hpage
  have hlt : ∀ k ∈ Finset.range 524288, k * PGSIZE < KERNBASE := by
    intro k hk
    rw [Finset.mem_range] at hk
    unfold PGSIZE KERNBASE
    omega
  have husable : ∀ k ∈ Finset.range 524288, IsPage (pageOf (e k)) ∧ img.Usable (pageOf (e k)) :=
    fun k hk => h.usable _ (List.mem_append_right _ (List.mem_append_right _
      (Mem.pageOf_mem_owned (hlt k hk) (he k hk))))
  have hcard := Finset.card_le_card_of_injOn (s := Finset.range 524288) (t := Finset.range 57344)
    (fun k => V2P (pageOf (e k)) / PGSIZE) (by
      intro k hk
      have hphys := (husable k hk).2.2.2
      unfold PHYSTOP at hphys
      rw [Finset.mem_coe, Finset.mem_range]
      change V2P (pageOf (e k)) / 4096 < 57344
      omega) (by
      intro k hk l hl hkl
      obtain ⟨⟨hka, -, hk32⟩, -⟩ := husable k hk
      obtain ⟨⟨hla, -, hl32⟩, -⟩ := husable l hl
      have hphys : V2P (pageOf (e k)) = V2P (pageOf (e l)) := by
        have hk' : V2P (pageOf (e k)) % PGSIZE = 0 := by
          unfold V2P uint KERNBASE PGSIZE at *
          omega
        have hl' : V2P (pageOf (e l)) % PGSIZE = 0 := by
          unfold V2P uint KERNBASE PGSIZE at *
          omega
        simp only at hkl
        unfold PGSIZE at hkl hk' hl'
        omega
      have haddr := h.mapping_inj (hlt k hk) (hlt l hl) (Nat.mul_mod_left _ _)
        (Nat.mul_mod_left _ _)
        (he k hk) (he l hl) (V2P_inj hk32 hl32 hphys)
      unfold PGSIZE at haddr
      omega)
  rw [Finset.card_range, Finset.card_range] at hcard
  omega

/-! ### The copy -/

theorem or_one_of_odd {n : Nat} (h : n % 2 = 1) : n ||| 1 = n := by
  apply Nat.eq_of_testBit_eq
  intro i
  rw [Nat.testBit_or]
  cases i with
  | zero =>
    rw [Nat.testBit_zero, h]
    rfl
  | succ i =>
    rw [Nat.testBit_succ (x := 1)]
    simp

theorem entry_copyPte {p e : Nat} (hp : IsPage p) : entry (copyPte p e) = some p := by
  have hflags : PTE_FLAGS e ||| PTE_P < PGSIZE :=
    Nat.or_lt_two_pow (n := 12) (Nat.mod_lt _ (by decide)) (by decide)
  unfold copyPte
  rw [Nat.or_assoc]
  exact entry_or hp hflags (present_or_right _ (by decide))

theorem flags_copyPte {p e : Nat} (hp : IsPage p) (he : Present e) :
    PTE_FLAGS (copyPte p e) = PTE_FLAGS e := by
  have haligned : V2P p % 2 ^ 12 = 0 := by
    have := hp.1
    unfold V2P uint KERNBASE
    unfold PGSIZE at this
    omega
  have hodd : e % 4096 % 2 = 1 := by
    unfold Present PTE_P at he
    rw [Nat.and_one_is_mod] at he
    omega
  unfold copyPte PTE_FLAGS
  rw [show PGSIZE = 2 ^ 12 from rfl, Nat.or_mod_two_pow, Nat.or_mod_two_pow, haligned, Nat.zero_or,
    Nat.mod_mod, show PTE_P % 2 ^ 12 = 1 from rfl]
  exact or_one_of_odd hodd

/-- What the child's directory has: the parent's pages in pages of its own, and
the kernel half of a new directory. -/
structure CopyOf (img : Image) (m m' : Mem) (src sz r : Nat) : Prop where
  page : ∀ x, x % PGSIZE = 0 → x < sz → ∃ e e', m.mapping src x = some e ∧
    m'.mapping r x = some e' ∧ PTE_FLAGS e' = PTE_FLAGS e ∧
    m'.page (pageOf e') = m.page (pageOf e) ∧ pageOf e' ∉ m.owned src
  distinct : ∀ x y e e', x < KERNBASE → y < KERNBASE → x % PGSIZE = 0 → y % PGSIZE = 0 →
    m'.mapping r x = some e → m'.mapping r y = some e' → pageOf e = pageOf e' → x = y
  above : ∀ x, x % PGSIZE = 0 → sz ≤ x → x < KERNBASE → m'.mapping r x = none
  kernel : ∃ m₁, setupkvm img m = (.ok r, m₁) ∧ ∀ x, x % PGSIZE = 0 → KERNBASE ≤ x → x < 2 ^ 32 →
    m'.mapping r x = m₁.mapping r x

/-- `copyuvm` when the pages of the parent are among those in use. -/
theorem Pool.copyuvm_run (h : Pool st m m free rest) (husable : ∀ v ∈ st.pages, img.Usable v)
    (hsrc : Among m src rest) (hsz : sz < KERNBASE)
    (hpresent : ∀ x, x % PGSIZE = 0 → x < sz → m.mapping src x ≠ none) :
    ∃ r m' free', copyuvm img src sz m = (.ok r, m') ∧
      (r = 0 ∧ free.length < copyPages sz ∧ Pool st m m' free' rest ∨
        r ≠ 0 ∧ copyPages sz ≤ free.length ∧ CopyOf img m m' src sz r ∧
          ∃ s', Shows st m m' r free' rest s') := by
  have hE : KfreeStops img st fun _ _ => False := kfreeStops_of_usable husable
  have hsetup : wp (setupkvm img) (fun d m₁ => ∃ free₁,
      d = 0 ∧ free.length < kernelPages ∧ Pool st m m₁ free₁ rest ∨
      d ≠ 0 ∧ free.length = free₁.length + kernelPages ∧
        ∃ s₁, s₁.New img ∧ Shows st m m₁ d free₁ rest s₁) (fun _ _ => False) m := by
    refine h.wp_setupkvm hE ?_ ?_
    · exact fun m₁ free₁ hshort hm₁ => ⟨free₁, Or.inl ⟨rfl, hshort, hm₁⟩⟩
    · exact fun d m₁ free₁ s₁ hpos hlength hnew hm₁ =>
        ⟨free₁, Or.inr ⟨hpos, hlength, s₁, hnew, hm₁⟩⟩
  obtain ⟨d, m₁, hrun, free₁, hcases⟩ := exists_of_wp hsetup
  rw [copyuvm_eq, bind_ok hrun]
  rcases hcases with ⟨rfl, hshort, hm₁⟩ | ⟨hpos, hlength, s₁, hnew, hm₁⟩
  · rw [if_pos rfl]
    exact ⟨0, m₁, free₁, rfl, Or.inl ⟨rfl, hshort.trans_le (Nat.le_add_right _ _), hm₁⟩⟩
  · rw [if_neg hpos]
    rw [hlength]
    have huser := hnew.user
    have hcopy : wp (copyInto img src d sz) (fun r m' => ∃ free',
        r = 0 ∧ free₁.length + kernelPages < copyPages sz ∧ Pool st m m' free' rest ∨
        r = d ∧ copyPages sz ≤ free₁.length + kernelPages ∧
          ∃ s', s₁.Copied s' m src free₁ (pages 0 sz) ∧ Shows st m m' d free' rest s')
        (fun _ _ => False) m₁ := by
      refine hm₁.wp_copyInto hnew (Nat.le_of_lt hsz) hsrc hE ?_ ?_ ?_
      · rintro ⟨x, hx, hnone⟩
        obtain ⟨haligned, -, hlt⟩ := (mem_pages (Nat.zero_mod _)).mp hx
        exact absurd hnone (hpresent x haligned hlt)
      · exact fun m' free' hshort hm' => ⟨free', Or.inl ⟨rfl, hshort, hm'⟩⟩
      · exact fun m' free' s' hle hcopied hm' => ⟨free', Or.inr ⟨rfl, hle, s', hcopied, hm'⟩⟩
    obtain ⟨r, m', hrun', free', hcases⟩ := exists_of_wp hcopy
    refine ⟨r, m', free', hrun', ?_⟩
    rcases hcases with hfailed | ⟨hr, hle, s', hcopied, hm'⟩
    · exact Or.inl hfailed
    · subst hr
      refine Or.inr ⟨hpos, hle, ⟨?_, ?_, ?_, m₁, hrun, ?_⟩, s', hm'⟩
      · intro x haligned hlt
        have hx : x < KERNBASE := hlt.trans hsz
        obtain ⟨e, p, hmap, hp, hnew⟩ :=
          hcopied.new x ((mem_pages (Nat.zero_mod _)).mpr ⟨haligned, Nat.zero_le _, hlt⟩)
        have hpage : IsPage p := hm₁.isPage (List.mem_append_left _ hp)
        obtain ⟨hmap', hbytes⟩ := hm'.mapping_of_user hx haligned hnew
        obtain ⟨-, hpageOf⟩ := present_of_entry (entry_copyPte (e := e) hpage)
        refine ⟨e, copyPte p e, hmap, hmap', ?_, hbytes, ?_⟩
        · exact flags_copyPte hpage (Mem.mapping_eq_some.mp hmap).2
        · rw [hpageOf]
          intro hown
          exact hm₁.ne_of_free hp (List.mem_append_left _ (hsrc p hown)) rfl
      · intro x y e e' hx hy hxa hya hmx hmy hpage
        exact Mem.mapping_inj hm'.owned_nodup hx hy hxa hya hmx hmy hpage
      · intro x haligned hge hx
        rw [hm'.mapping_eq_none hx haligned, hcopied.old x, huser]
        rw [mem_pages (Nat.zero_mod _)]
        omega
      · intro x haligned hge hlt
        rw [hm'.kernel x hge hlt haligned, hcopied.kernel, ← hm₁.kernel x hge hlt haligned]

theorem CopyOf.setPage {s' : Space} {k r : Nat} {free' : List Nat} {b : Page}
    (h : CopyOf img m m' src sz r) (hsz : sz < KERNBASE) (hshows : Shows st base m' r free' rest s')
    (hk : k ∈ rest) : CopyOf img m (m'.setPage k b) src sz r := by
  have hpage : ∀ p ∈ m'.owned r, (m'.setPage k b).page p = m'.page p := by
    intro p hp
    refine m'.setPage_page_of_ne b ?_
    rintro rfl
    exact hshows.ne_of_rest hk hp rfl
  have hmap : ∀ x, (m'.setPage k b).mapping r x = m'.mapping r x := by
    refine Mem.mapping_congr fun p hp => hpage p ?_
    exact List.mem_cons.mpr ((List.mem_cons.mp hp).imp_right (List.mem_append_left _))
  refine ⟨?_, ?_, ?_, ?_⟩
  · intro x haligned hlt
    obtain ⟨e, e', he, he', hflags, hbytes, hown⟩ := h.page x haligned hlt
    refine ⟨e, e', he, (hmap x).trans he', hflags, ?_, hown⟩
    rw [hpage _ (Mem.pageOf_mem_owned (hlt.trans hsz) he'), hbytes]
  · intro x y e e' hx hy hxa hya hmx hmy
    rw [hmap] at hmx hmy
    exact h.distinct x y e e' hx hy hxa hya hmx hmy
  · intro x haligned hge hlt
    rw [hmap, h.above x haligned hge hlt]
  · obtain ⟨m₁, hrun, hkernel⟩ := h.kernel
    refine ⟨m₁, hrun, fun x haligned hge hlt => ?_⟩
    rw [hmap, hkernel x haligned hge hlt]

/-! ### The slot and the kernel stack -/

theorem wp_onMem {α : Type} {x : VmM α} {Q : α → ForkState → Prop} {E : Panic → ForkState → Prop}
    {s : ForkState} : wp (onMem x) Q E s ↔
      wp x (fun a m => Q a { s with mem := m }) (fun e m => E e { s with mem := m }) s.mem := by
  unfold wp onMem
  rcases x s.mem with ⟨_ | _, _⟩ <;> rfl

/-- The slot that `allocproc` prepares. -/
def Child.alloc (x : Child) (pid : Int) (kstack : Nat) : Child :=
  { x with toProc := x.toProc.alloc pid, kstack := kstack }

/-- A failed `fork`: a slot that was unused is unused again and has no stack, and
the free list holds the same pages. -/
structure ForkFailed (s s' : ForkState) (free used : List Nat) : Prop where
  slots : s'.proc = s.proc ∨ ∃ q, (s.proc q).state = .unused ∧ (s'.proc q).state = .unused ∧
    (s'.proc q).kstack = 0 ∧ ∀ x ≠ q, s'.proc x = s.proc x
  list : ∃ free', s'.mem.FreeList free' ∧ free'.Perm free
  pages : ∀ p ∈ used, s'.mem.page p = s.mem.page p

theorem wp_allocproc {s : ForkState} {used : List Nat} {Q : Option Slot → ForkState → Prop}
    {E : Panic → ForkState → Prop} (h : Pool st s.mem s.mem free used)
    (hnone : ∀ s', (∀ q, (s.proc q).state ≠ .unused) ∨ free = [] → ForkFailed s s' free used →
      Q none s')
    (hsome : ∀ q k free' b, (s.proc q).state = .unused → free = k :: free' →
      Q (some q) { mem := { (s.mem.setPage k b) with freelist := s.mem.next k }
                   proc := set s.proc q ((s.proc q).alloc s.nextpid k)
                   nextpid := s.nextpid + 1 }) :
    wp (allocproc code) Q E s := by
  unfold allocproc
  rw [wp_bind, wp_gets]
  cases hslot : unusedSlot fun q => (s.proc q).toProc with
  | none =>
    have hnot : ∀ q, (s.proc q).state ≠ .unused := fun q => by
      simpa using List.find?_eq_none.mp hslot q (List.mem_finRange q)
    rw [wp_pure]
    exact hnone s (Or.inl hnot)
      ⟨Or.inl rfl, ⟨free, h.list, List.Perm.refl _⟩, fun _ _ => rfl⟩
  | some q =>
    have hunused : (s.proc q).state = .unused := unusedSlot_state hslot
    simp only [setChild, wp_bind, wp_modify, wp_onMem, set_self, set_set]
    apply h.wp_kalloc
    · intro hfree
      rw [if_pos rfl, wp_bind, wp_modify, wp_pure]
      refine hnone _ (Or.inr hfree) ⟨Or.inr ⟨q, hunused, ?_, ?_, ?_⟩,
        ⟨free, h.list, List.Perm.refl _⟩, fun _ _ => rfl⟩
      · simp
      · simp
      · intro x hx
        simp [set_of_ne _ _ hx]
    · intro k free' hfree hpos
      rw [if_neg hpos, wp_bind, wp_onMem, wp_modify, wp_pure]
      exact hsome q k free' _ hunused hfree

/-- A `fork` that succeeds: a slot that was unused holds a process with a stack
of its own, the parent's size and a copy of its space. The copy was made in `m`,
when the stack had been taken. -/
structure Forked (img : Image) (p : Slot) (s s' : ForkState) (rest : List Nat) (q : Slot)
    (kstack pgdir : Nat) : Prop where
  unused : (s.proc q).state = .unused
  slots : s'.proc = set s.proc q { (s.proc q).alloc s.nextpid kstack with
    state := .runnable, parent := some p, pgdir := pgdir, sz := (s.proc p).sz }
  pages : ∀ v ∈ rest ++ s.mem.owned (s.proc p).pgdir, s'.mem.page v = s.mem.page v
  copy : ∃ m, (∀ v ∈ rest ++ s.mem.owned (s.proc p).pgdir, m.page v = s.mem.page v) ∧
    CopyOf img m s'.mem (s.proc p).pgdir (s.proc p).sz pgdir
  sound : ∃ free', Sound img s'.mem pgdir free' (kstack :: (rest ++ s.mem.owned (s.proc p).pgdir))

theorem fork_run {s : ForkState} {p : Slot} (h : Sound img s.mem (s.proc p).pgdir free rest)
    (hlive : (s.proc p).state ≠ .unused)
    (hpresent : ∀ x, x % PGSIZE = 0 → x < (s.proc p).sz → s.mem.mapping (s.proc p).pgdir x ≠ none) :
    ∃ v s', fork img code p s = (.ok v, s') ∧
      (v = -1 ∧ ((∀ q, (s.proc q).state ≠ .unused) ∨
          free.length < copyPages (s.proc p).sz + 1) ∧
        ForkFailed s s' free (rest ++ s.mem.owned (s.proc p).pgdir) ∨
        copyPages (s.proc p).sz + 1 ≤ free.length ∧
          ∃ q kstack pgdir, v = s.nextpid ∧ Forked img p s s' rest q kstack pgdir) := by
  have hsz : (s.proc p).sz < KERNBASE := h.sz_lt hpresent
  obtain ⟨st, husable, hpool⟩ := h.pool
  have hE : KfreeStops img st fun _ _ => False := kfreeStops_of_usable husable
  obtain ⟨used, hused⟩ : ∃ used, used = rest ++ s.mem.owned (s.proc p).pgdir := ⟨_, rfl⟩
  rw [← hused] at hpool
  apply exists_of_wp
  unfold fork
  rw [wp_bind]
  refine wp_allocproc hpool ?_ ?_
  · intro s' hcause hfailed
    rw [wp_pure, ← hused]
    exact Or.inl ⟨rfl, hcause.imp_right fun hempty => by rw [hempty]; exact Nat.succ_pos _, hfailed⟩
  · intro q k free₁ b hunused hfree
    have hqp : p ≠ q := by
      rintro rfl
      exact hlive hunused
    subst hfree
    have htaken := (hpool.take b).self
    obtain ⟨m₁, hm₁⟩ : ∃ m₁ : Mem,
      m₁ = { (s.mem.setPage k b) with freelist := s.mem.next k } := ⟨_, rfl⟩
    rw [← hm₁] at htaken ⊢
    have hsame : ∀ v ∈ used, m₁.page v = s.mem.page v := by
      intro v hv
      rw [hm₁]
      exact s.mem.setPage_page_of_ne b (hpool.ne_of_free List.mem_cons_self hv).symm
    have hdir : ∀ v ∈ s.mem.owned (s.proc p).pgdir, m₁.page v = s.mem.page v := fun v hv =>
      hsame v (hused ▸ List.mem_append_right _ hv)
    have hdir' : ∀ v ∈ (s.proc p).pgdir :: s.mem.tables (s.proc p).pgdir,
        m₁.page v = s.mem.page v :=
      fun v hv => hdir v
        (List.mem_cons.mpr ((List.mem_cons.mp hv).imp_right (List.mem_append_left _)))
    have hamong : Among m₁ (s.proc p).pgdir (k :: used) := by
      unfold Among
      rw [Mem.owned_congr hdir', hused]
      exact fun v hv => List.mem_cons_of_mem _ (List.mem_append_right _ hv)
    have hpresent₁ : ∀ x, x % PGSIZE = 0 → x < (s.proc p).sz →
        m₁.mapping (s.proc p).pgdir x ≠ none := by
      intro x haligned hlt
      rw [Mem.mapping_congr hdir' x]
      exact hpresent x haligned hlt
    obtain ⟨r, m₂, free₂, hrun, hcases⟩ := htaken.copyuvm_run husable hamong hsz hpresent₁
    simp only [setChild, wp_bind, wp_gets, wp_modify, wp_onMem, set_self, set_set,
      set_of_ne _ _ hqp]
    refine wp_of_run hrun ?_
    rcases hcases with ⟨hr, hshort, hm₂⟩ | ⟨hr, hle, hcopy, s₂, hm₂⟩
    · rw [if_pos hr, wp_bind, wp_onMem]
      refine hm₂.wp_kfree hE fun hgiven => ?_
      rw [wp_bind, wp_modify, wp_pure]
      refine Or.inl ⟨rfl, Or.inr (Nat.succ_lt_succ hshort),
        Or.inr ⟨q, hunused, ?_, ?_, ?_⟩, ?_, ?_⟩
      · simp
      · simp
      · intro x hx
        simp [set_of_ne _ _ hx]
      · exact ⟨_, hgiven.list, (hpool.free_perm (hgiven.rebase hsame))⟩
      · intro v hv
        rw [← hused] at hv
        exact (hgiven.kept v hv).trans (hsame v hv)
    · rw [if_neg hr]
      simp only [wp_bind, wp_modify, wp_onMem, wp_pure, set_self, set_set]
      have hk : k ∈ k :: used := List.mem_cons_self
      refine Or.inr ⟨Nat.succ_le_succ hle, q, k, r, rfl, hunused, rfl, ?_, ⟨m₁, hused ▸ hsame, ?_⟩,
        free₂, ?_⟩
      · intro v hv
        rw [← hused] at hv
        have hvk : v ≠ k := (hpool.ne_of_free List.mem_cons_self hv).symm
        exact (m₂.setPage_page_of_ne _ hvk).trans
          ((hm₂.kept v (List.mem_cons_of_mem _ hv)).trans (hsame v hv))
      · exact hcopy.setPage hsz hm₂ hk
      · rw [← hused]
        exact (hm₂.setRest hk _).sound husable

/-- `fork` copies the address space. When every page below the size is present,
`copyuvm` makes a copy in other pages if the free list is long enough, and
otherwise gives back what it took; the parent's pages are as they were. A `fork`
fails only for want of a slot or of pages, and then leaves the slot unused and its
stack in the free list. -/
theorem fork_copies_space (code : Entry) (h : Sound img m src free rest)
    (hpresent : ∀ x, x % PGSIZE = 0 → x < sz → m.mapping src x ≠ none) :
    (∃ r m' free', copyuvm img src sz m = (.ok r, m') ∧ m'.FreeList free' ∧
      (∀ p ∈ rest ++ m.owned src, m'.page p = m.page p) ∧
      (r = 0 ∧ free.length < copyPages sz ∧ free'.Perm free ∨
        r ≠ 0 ∧ copyPages sz ≤ free.length ∧ CopyOf img m m' src sz r)) ∧
    ∀ (s : ForkState) (p : Slot), s.mem = m → (s.proc p).pgdir = src → (s.proc p).sz = sz →
      (s.proc p).state ≠ .unused → ∃ v s', fork img code p s = (.ok v, s') ∧
        (v = -1 ∧ ((∀ q, (s.proc q).state ≠ .unused) ∨ free.length < copyPages sz + 1) ∧
            ForkFailed s s' free (rest ++ m.owned src) ∨
          copyPages sz + 1 ≤ free.length ∧
            ∃ q kstack pgdir, v = s.nextpid ∧ Forked img p s s' rest q kstack pgdir) := by
  constructor
  · obtain ⟨st, husable, hpool⟩ := h.pool
    obtain ⟨r, m', free', hrun, hcases⟩ :=
      hpool.copyuvm_run husable (fun _ hp => List.mem_append_right _ hp) (h.sz_lt hpresent) hpresent
    refine ⟨r, m', free', hrun, ?_⟩
    rcases hcases with ⟨hr, hshort, hm'⟩ | ⟨hr, hle, hcopy, s', hm'⟩
    · exact ⟨hm'.list, hm'.kept, Or.inl ⟨hr, hshort, hpool.free_perm hm'⟩⟩
    · exact ⟨hm'.list, hm'.kept, Or.inr ⟨hr, hle, hcopy⟩⟩
  · rintro s p rfl rfl rfl hlive
    exact fork_run h hlive hpresent

/-- A process with this directory, alone in the table. -/
def loneProc (m : Mem) (pgdir sz : Nat) : ForkState where
  mem := m
  proc := fun q =>
    if q = 0 then ⟨⟨.running, 1, none, 0, none, false⟩, 0x80400000, pgdir, sz⟩
    else ⟨⟨.unused, 0, none, 0, none, false⟩, 0, 0, 0⟩
  nextpid := 2

/-- A process that runs the program of four bytes is copied. -/
theorem fork_copies_space_tinyFile : ∃ m d,
    (∃ r m', copyuvm smallImage d 4 m = (.ok r, m') ∧ CopyOf smallImage m m' d 4 r) ∧
    ∃ s' q kstack pgdir,
      fork smallImage ⟨0x80105f2f, 0x801038a0⟩ 0 (loneProc m d 4) = (.ok 2, s') ∧
        Forked smallImage 0 (loneProc m d 4) s' [0x80400000] q kstack pgdir := by
  obtain ⟨d, m, -, hbelow, free, hfree, hsound⟩ := load_tinyFile
  have hpresent : ∀ x, x % PGSIZE = 0 → x < 4 → m.mapping d x ≠ none := fun x haligned hx =>
    (hbelow x (hx.trans (by decide)) haligned).mpr (hx.trans_le (by decide))
  have hneed : copyPages 4 = 67 := by decide +kernel
  obtain ⟨⟨r, m', _, hrun, -, -, hcopy⟩, hfork⟩ :=
    fork_copies_space ⟨0x80105f2f, 0x801038a0⟩ hsound hpresent
  obtain ⟨v, s', hrun', hforked⟩ :=
    hfork (loneProc m d 4) 0 rfl rfl rfl (show ProcState.running ≠ .unused by decide)
  rw [hneed] at hcopy hforked
  refine ⟨m, d, ⟨r, m', hrun, ?_⟩, s', ?_⟩
  · exact (hcopy.resolve_left fun hbad => absurd hbad.2.1 (by omega)).2.2
  · obtain ⟨-, hcause, -⟩ | ⟨-, q, kstack, pgdir, rfl, hforked⟩ := hforked
    · rcases hcause with hslots | hshort
      · exact absurd rfl (hslots 1)
      · omega
    · exact ⟨q, kstack, pgdir, hrun', hforked⟩

end Xv6.Vm
