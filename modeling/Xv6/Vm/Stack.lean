import Xv6.Vm.Load

/-!
The user stack that `exec` builds: one page above a page that user code cannot
reach, with the argument strings at its end and below them the words that `main`
finds.
-/

namespace Xv6.Vm

open Prog ByteSeq

def MAXARG : Nat := 32

/-- `a - b`. -/
def usub (a b : Nat) : Nat := uint (a + (2 ^ 32 - uint b))

/-- A string without its NUL. -/
abbrev CString := { l : List UInt8 // 0 ∉ l }

namespace CString

def strlen (arg : CString) : Nat := arg.val.length

/-- The bytes with the NUL. -/
def byte (arg : CString) (j : Nat) : UInt8 := arg.val.getD j 0

end CString

def clearpteu (pgdir uva : Nat) : VmM Unit := do
  match ← walkpgdir pgdir uva false with
  | none => fail .clearpteu
  | some (pgtab, i) => modify fun m => m.setWord pgtab i (m.word pgtab i &&& (2 ^ 32 - 1 - PTE_U))

/-- The loop that pushes the strings. `ustack` holds the pointers to those that
are pushed, and `none` is `goto bad`. -/
def pushStrings (pgdir : Nat) : List CString → Nat → List Nat → VmM (Option (Nat × List Nat))
  | [], sp, ustack => return some (sp, ustack)
  | arg :: argv, sp, ustack =>
    if MAXARG ≤ ustack.length then
      return none
    else do
      let sp := usub sp (arg.strlen + 1) / 4 * 4
      if (← copyout pgdir sp arg.byte (arg.strlen + 1)) < 0 then
        return none
      else
        pushStrings pgdir argv sp (ustack ++ [sp])

/-- The bytes of an array of words. -/
def wordBytes (words : List Nat) (j : Nat) : UInt8 := leByte (words.getD (j / 4) 0) (j % 4)

/-- The whole of `ustack` when `argc` strings have been pushed. -/
def ustackWords (argc sp : Nat) (ustack : List Nat) : List Nat :=
  0xffffffff :: argc :: usub sp ((argc + 1) * 4) :: (ustack ++ [0])

/-- The arguments: strings first, then `ustack`. The result is the stack pointer. -/
def pushArgs (pgdir : Nat) (argv : List CString) (sz : Nat) : VmM (Option Nat) := do
  match ← pushStrings pgdir argv sz [] with
  | none => return none
  | some (sp, ustack) =>
    let argc := ustack.length
    let len := (3 + argc + 1) * 4
    if (← copyout pgdir (usub sp len) (wordBytes (ustackWords argc sp ustack)) len) < 0 then
      return none
    else
      return some (usub sp len)

/-! ### A copy into a space -/

variable {img : Image} {st : Stock} {base m : Mem} {d va len sz : Nat} {free rest : List Nat}
  {s : Space} {E : Panic → Mem → Prop} {p : Nat → UInt8}

variable {x guard a e : Nat} {m' : Mem} {g : Nat → Option UInt8} {s' : Space}

/-- The space with the bytes that its pages have in `m`. -/
def Space.read (s : Space) (m : Mem) : Space :=
  { s with user := fun x => (s.user x).map fun v => (v.1, m.page (pageOf v.1)) }

theorem Space.read_user (s : Space) (m : Mem) (x : Nat) :
    (s.read m).user x = (s.user x).map fun v => (v.1, m.page (pageOf v.1)) := rfl

theorem Shows.filled {k : Nat} (h : Shows st base m d free rest s) (hs : s.FreshKernel img)
    (hfilled : Filled m m' d va p k) : Shows st base m' d free rest (s.read m') := by
  have hkernel : ∀ x q, x < 2 ^ 32 → m.userPage d x = some q →
      q ∈ m.owned d ∧ q ∉ d :: m.tables d := by
    intro x q hx hsome
    have hx' := h.lt_of_userPage hs hx hsome
    obtain ⟨e, hmap, -, rfl⟩ := Mem.userPage_eq_some.mp hsome
    exact ⟨Mem.pageOf_mem_owned hx' hmap, ((h.unaliased hs).separate x _ hx hsome).2⟩
  have hother : ∀ q, q ∉ m.owned d → m'.page q = m.page q := by
    intro q hq
    refine hfilled.page_eq fun i _ hsome => ?_
    exact hq (hkernel _ q (byteAddr_lt va i) hsome).1
  have htables : ∀ q ∈ d :: m.tables d, m'.page q = m.page q := by
    intro q hq
    refine hfilled.page_eq fun i _ hsome => ?_
    exact (hkernel _ q (byteAddr_lt va i) hsome).2 hq
  refine ⟨?_, ?_, ?_, ?_, ?_, ?_⟩
  · refine h.list.congr hfilled.freelist fun q hq => hother q fun hown => ?_
    exact h.ne_of_free_owned hq hown rfl
  · rw [Mem.owned_congr htables]
    exact h.all
  · intro q hq
    rw [hother q fun hown => h.ne_of_rest hq hown rfl, h.kept q hq]
  · intro i hi
    rw [Mem.table_congr (htables d List.mem_cons_self), h.table i hi]
    rfl
  · intro x hx haligned
    have huser := h.user x hx haligned
    unfold Mem.user at huser ⊢
    rw [Mem.mapping_congr htables x, Space.read_user, ← huser]
    cases m.mapping d x <;> rfl
  · intro x hx hlt haligned
    rw [Mem.mapping_congr htables x, h.kernel x hx hlt haligned]
    rfl

/-- The pages below `sz` are there, and user code reaches all of them but the one
at `guard`. -/
structure Space.Stacked (s : Space) (sz guard : Nat) : Prop where
  below : ∀ x, s.user x ≠ none ↔ x % PGSIZE = 0 ∧ x < sz
  reachable : ∀ x v, s.user x = some v → (Reachable v.1 ↔ x ≠ guard)

section

variable (h : Shows st base m d free rest s) (hs : s.Stacked sz guard)
include h hs

theorem Shows.userPage_iff (hsz : sz ≤ KERNBASE) (ha : a < sz) :
    m.table d (PDX a) ≠ none ∧ (m.userPage d a = none ↔ PGROUNDDOWN a = guard) := by
  obtain ⟨e, b, huser, hmap, -⟩ := h.mapped_below hs.below hsz ha
  obtain ⟨t, ht, -⟩ := Mem.table_of_mapping hmap
  have hreach := hs.reachable _ _ huser
  constructor
  · rw [ht]
    exact Option.some_ne_none t
  · rw [Mem.userPage_eq_none]
    constructor
    · intro hnone
      by_contra hne
      exact hnone e hmap (hreach.mpr hne)
    · intro heq e' he'
      obtain rfl := Option.some.inj (he'.symm.trans hmap)
      exact fun hr => hreach.mp hr heq

/-- The bytes of a filled range. -/
theorem Shows.written (hsz : sz ≤ KERNBASE) (hend : va + len ≤ sz)
    (hfilled : Filled m m' d va p len) :
    s.Written (s.read m') (slice va len p) where
  entries := by
    intro x
    rw [Space.read_user]
    cases s.user x <;> rfl
  bytes := by
    intro a
    unfold Space.byteAt
    rw [Space.read_user]
    cases huser : s.user (PGROUNDDOWN a) with
    | none => rfl
    | some v =>
      obtain ⟨e, b⟩ := v
      rw [Option.map_some, Option.map_some, Option.map_some, Option.map_some, Option.some_inj]
      have hbelow := (hs.below (PGROUNDDOWN a)).mp (by rw [huser]; exact Option.some_ne_none _)
      have haligned : PGROUNDDOWN a % PGSIZE = 0 := Nat.mul_mod_left _ _
      obtain ⟨hmap, hpage⟩ := h.mapping_of_user (by omega) haligned huser
      have haddr : ∀ i < len, byteAddr va i = va + i := by
        intro i hi
        unfold byteAddr uint
        unfold KERNBASE at hsz
        omega
      unfold slice
      by_cases hin : va ≤ a ∧ a < va + len
      · obtain ⟨q, hq, hbyte⟩ := hfilled.copied (a - va) (by omega)
        rw [haddr _ (by omega), Nat.add_sub_cancel' hin.1] at hq hbyte
        obtain ⟨e', he', -, rfl⟩ := Mem.userPage_eq_some.mp hq
        rw [Mem.mapping_round, he'] at hmap
        obtain rfl := Option.some.inj hmap
        rw [if_pos hin, hbyte]
        rfl
      · rw [if_neg hin, Option.getD_none, ← hpage]
        refine hfilled.frame _ _ fun i hi hq hoff => hin ?_
        rw [haddr i hi] at hq hoff
        obtain ⟨e', he', -, hsame⟩ := Mem.userPage_eq_some.mp hq
        rw [← Mem.mapping_round] at he'
        have hle : PGROUNDDOWN (va + i) ≤ va + i := Nat.div_mul_le_self _ PGSIZE
        have huser : PGROUNDDOWN (va + i) < KERNBASE := by omega
        have hpages := Mem.mapping_inj h.owned_nodup huser (by omega) (Nat.mul_mod_left _ _)
          haligned he' hmap hsame
        have heq := eq_of_page hpages hoff
        omega
  kernel := rfl

/-- A copy that has page tables under it stays in the space. -/
theorem Shows.wp_copyout {Q : Int → Mem → Prop} (hkernel : s.FreshKernel img) (hsz : sz ≤ KERNBASE)
    (hva : va < 2 ^ 32) (hlen : len < 2 ^ 32) (htables : Guarded m d va len)
    (hfail : ∀ m' s', (∃ i < len, m.userPage d (byteAddr va i) = none) →
      Shows st base m' d free rest s' → Q (-1) m')
    (hok : ∀ m' s', (∀ i < len, m.userPage d (byteAddr va i) ≠ none) →
      (va + len ≤ sz → s.Written s' (slice va len p)) → Shows st base m' d free rest s' → Q 0 m') :
    wp (copyout d va p len) Q E m := by
  apply Vm.wp_copyout (h.unaliased hkernel) hva hlen
  · intro j hj hbefore hnone
    exact absurd hnone (htables j hj hbefore)
  · intro j hj _ _ hnone m' hfilled
    exact hfail m' _ ⟨j, hj, hnone⟩ (h.filled hkernel hfilled)
  · intro m' hfilled
    refine hok m' _ ?_ (fun hend => h.written hs hsz hend hfilled) (h.filled hkernel hfilled)
    intro i hi
    obtain ⟨q, hq, -⟩ := hfilled.copied i hi
    rw [hq]
    exact Option.some_ne_none q

end

section Push

variable {Q : Int → Mem → Prop}

theorem byteAddr_of_le {i : Nat} (hsz : sz ≤ KERNBASE) (hend : va + len ≤ sz) (hi : i < len) :
    byteAddr va i = va + i := by
  unfold byteAddr uint
  unfold KERNBASE at hsz
  omega

section

variable (h : Shows st base m d free rest s) (hs : s.Stacked sz (sz - 2 * PGSIZE))
  (hkernel : s.FreshKernel img) (hsz : sz ≤ KERNBASE) (haligned : sz % PGSIZE = 0)
  (hroom : 2 * PGSIZE ≤ sz)
include h hs hkernel hsz haligned hroom

/-- A range in the page above the guard is copied. -/
theorem Shows.wp_copyout_stack (hstart : sz ≤ va + PGSIZE) (hend : va + len ≤ sz)
    (hQ : ∀ m' s', s.Written s' (slice va len p) → Shows st base m' d free rest s' → Q 0 m') :
    wp (copyout d va p len) Q E m := by
  have haddr : ∀ i < len, byteAddr va i = va + i := fun i hi => byteAddr_of_le hsz hend hi
  have hreach : ∀ i < len, m.table d (PDX (byteAddr va i)) ≠ none ∧
      m.userPage d (byteAddr va i) ≠ none := by
    intro i hi
    obtain ⟨htable, hiff⟩ := h.userPage_iff hs hsz (a := va + i) (by omega)
    rw [haddr i hi]
    refine ⟨htable, fun hnone => ?_⟩
    have := hiff.mp hnone
    unfold PGROUNDDOWN PGSIZE at *
    omega
  apply h.wp_copyout hs hkernel hsz
  · unfold KERNBASE at hsz
    omega
  · unfold KERNBASE at hsz
    omega
  · exact fun k hk _ => (hreach k hk).1
  · rintro m' s' ⟨i, hi, hnone⟩
    exact absurd hnone (hreach i hi).2
  · intro m' s' _ hwritten hm'
    exact hQ m' s' (hwritten hend) hm'

/-- A range that begins below that page runs into the guard. -/
theorem Shows.wp_copyout_guard (hlen : 0 < len) (hstart : va + PGSIZE < sz)
    (hguard : sz < va + len + 2 * PGSIZE) (hend : va + len ≤ sz)
    (hQ : ∀ m' s', Shows st base m' d free rest s' → Q (-1) m') :
    wp (copyout d va p len) Q E m := by
  have haddr : ∀ i < len, byteAddr va i = va + i := fun i hi => byteAddr_of_le hsz hend hi
  have hiff : ∀ i < len, m.table d (PDX (byteAddr va i)) ≠ none ∧
      (m.userPage d (byteAddr va i) = none ↔ PGROUNDDOWN (va + i) = sz - 2 * PGSIZE) := by
    intro i hi
    rw [haddr i hi]
    exact h.userPage_iff hs hsz (by omega)
  -- the first byte of the guard, or the first of the range
  obtain ⟨i, hi, hin⟩ : ∃ i < len, PGROUNDDOWN (va + i) = sz - 2 * PGSIZE := by
    refine ⟨sz - 2 * PGSIZE - va, ?_, ?_⟩
    · unfold PGSIZE at *
      omega
    · unfold PGROUNDDOWN PGSIZE at *
      omega
  apply h.wp_copyout hs hkernel hsz
  · unfold KERNBASE at hsz
    omega
  · unfold KERNBASE at hsz
    omega
  · exact fun k hk _ => (hiff k hk).1
  · intro m' s' _ hm'
    exact hQ m' s' hm'
  · intro m' s' hall
    exact absurd ((hiff i hi).2.mpr hin) (hall i hi)

end

def lastPage : Nat := 0xFFFFF000

/-- It is one of the device pages. -/
theorem kernelMap_lastPage (img : Image) : kernelMap (kmap img) lastPage ≠ none := by
  intro hnone
  have hrow := List.findSome?_eq_none_iff.mp hnone ⟨DEVSPACE, DEVSPACE, 0, PTE_W⟩ (by simp [kmap])
  rw [Kmap.entry_eq_none_iff, kmap_devices_size] at hrow
  exact hrow (by decide)

/-- A range in the last page of all finds a page of the kernel. -/
theorem Shows.wp_copyout_top (h : Shows st base m d free rest s)
    (hs : s.Stacked sz (sz - 2 * PGSIZE))
    (hkernel : s.FreshKernel img) (hsz : sz ≤ KERNBASE) (hva : va < 2 ^ 32)
    (htop : 2 ^ 32 ≤ va + PGSIZE) (hlen : 0 < len) (hlt : len < 2 ^ 32)
    (hQ : ∀ m' s', Shows st base m' d free rest s' → Q (-1) m') :
    wp (copyout d va p len) Q E m := by
  have hnone : m.userPage d (byteAddr va 0) = none := by
    refine h.userPage_kernel hkernel ?_ (byteAddr_lt va 0)
    unfold byteAddr uint KERNBASE
    unfold PGSIZE at htop
    omega
  have htable : m.table d (PDX (byteAddr va 0)) ≠ none := by
    have hpage : PGROUNDDOWN (byteAddr va 0) = lastPage ∧ PGROUNDDOWN lastPage = lastPage := by
      unfold PGROUNDDOWN byteAddr uint lastPage
      unfold PGSIZE at *
      omega
    have hmap : m.mapping d (byteAddr va 0) ≠ none := by
      rw [Mem.mapping_of_page (hpage.1.trans hpage.2.symm),
        h.kernel lastPage (by decide) (by decide) (by decide), hkernel lastPage (by decide)]
      exact kernelMap_lastPage img
    obtain ⟨e, he⟩ := Option.ne_none_iff_exists'.mp hmap
    obtain ⟨t, ht, -⟩ := Mem.table_of_mapping he
    rw [ht]
    exact Option.some_ne_none t
  apply h.wp_copyout hs hkernel hsz hva hlt
  · intro k hk hbefore
    cases k with
    | zero => exact htable
    | succ k => exact absurd hnone (hbefore 0 (Nat.succ_pos k))
  · intro m' s' _ hm'
    exact hQ m' s' hm'
  · intro m' s' hall
    exact absurd hnone (hall 0 hlen)

end Push

/-! ### The guard page -/

/-- `pte & ~PTE_U`. -/
def guardPte (e : Nat) : Nat := e &&& (2 ^ 32 - 1 - PTE_U)

theorem guardPte_lt (e : Nat) : guardPte e < 2 ^ 32 :=
  Nat.and_lt_two_pow _ (by decide)

theorem present_guardPte (h : Present e) : Present (guardPte e) := by
  unfold Present PTE_P at *
  unfold guardPte
  rw [Nat.and_assoc, show (2 ^ 32 - 1 - PTE_U) &&& 0x001 = 0x001 by decide]
  exact h

theorem not_reachable_guardPte (e : Nat) : ¬ Reachable (guardPte e) := by
  rw [reachable_iff, guardPte, Nat.testBit_and,
    show Nat.testBit (2 ^ 32 - 1 - PTE_U) 2 = false by decide, Bool.and_false]
  decide

theorem pageOf_guardPte (he : e < 2 ^ 32) : pageOf (guardPte e) = pageOf e := by
  have hdiv : guardPte e / 2 ^ 12 = e / 2 ^ 12 := by
    unfold guardPte
    rw [Nat.and_div_two_pow, show (2 ^ 32 - 1 - PTE_U) / 2 ^ 12 = 2 ^ 20 - 1 by decide,
      Nat.and_two_pow_sub_one_eq_mod]
    omega
  unfold pageOf PTE_ADDR
  rw [show PGSIZE = 2 ^ 12 from rfl, hdiv]

theorem Shows.wp_clearpteu {b : Page} {Q : Unit → Mem → Prop} (h : Shows st base m d free rest s)
    (hx : x < KERNBASE) (haligned : x % PGSIZE = 0) (huser : s.user x = some (e, b))
    (hQ : ∀ m', Shows st base m' d free rest (s.setUser x (some (guardPte e, b))) → Q () m') :
    wp (clearpteu d x) Q E m := by
  obtain ⟨hmap, hpage⟩ := h.mapping_of_user hx haligned huser
  obtain ⟨t, ht, hword⟩ := Mem.table_of_mapping hmap
  obtain ⟨-, hpresent⟩ := Mem.mapping_eq_some.mp hmap
  have he : e < 2 ^ 32 := hword ▸ Bytes.num_lt _ 4 _
  unfold clearpteu
  rw [wp_bind]
  apply wp_walk
  rw [ht, Option.map_some, wp_modify, hword]
  have hset := h.setPte (e := guardPte e) rest base hx haligned ht (guardPte_lt e) (by
    rw [entry_of_present (present_guardPte hpresent), Mem.leaf_eq_mapping, hmap, Option.map_some,
      pageOf_guardPte he]) h.kept
  rw [if_pos (present_guardPte hpresent), pageOf_guardPte he, hpage] at hset
  exact hQ _ hset

theorem Space.Loaded.stacked {b : Page} (h : s.Loaded sz g) (huser : s.user x = some (e, b)) :
    (s.setUser x (some (guardPte e, b))).Stacked sz x where
  below := by
    intro y
    by_cases hy : y = x
    · rw [hy, Space.setUser_self, ← h.below x, huser]
      exact iff_of_true (Option.some_ne_none _) (Option.some_ne_none _)
    · rw [Space.setUser_of_ne _ hy, h.below y]
  reachable := by
    intro y v hv
    by_cases hy : y = x
    · rw [hy, Space.setUser_self] at hv
      obtain rfl := Option.some.inj hv
      exact iff_of_false (not_reachable_guardPte e) (fun hne => hne hy)
    · rw [Space.setUser_of_ne _ hy] at hv
      obtain ⟨p, -, hentry⟩ := h.entries y v hv
      rw [hentry]
      exact iff_of_true (reachable_userPte p) hy

theorem Space.Stacked.write (h : s.Stacked sz guard) (hwritten : s.Written s' g) :
    s'.Stacked sz guard where
  below x := (hwritten.user_ne_none x).trans (h.below x)
  reachable := by
    intro x v hv
    have hfst := hwritten.entries x
    rw [hv, Option.map_some] at hfst
    obtain ⟨w, hw, hwv⟩ := Option.map_eq_some_iff.mp hfst.symm
    rw [← hwv]
    exact h.reachable x w hw

/-! ### The strings -/

/-- The bytes that a string takes on the stack. -/
def CString.size (arg : CString) : Nat := (arg.strlen + 4) / 4 * 4

def room (argv : List CString) : Nat := (argv.map CString.size).sum

/-- Where the strings go from `sp` down. -/
def pointers : List CString → Nat → List Nat
  | [], _ => []
  | arg :: argv, sp => (sp - arg.size) :: pointers argv (sp - arg.size)

/-- The bytes of the strings. -/
def strings : List CString → Nat → Nat → Option UInt8
  | [], _, _ => none
  | arg :: argv, sp, a =>
    (strings argv (sp - arg.size) a).or (slice (sp - arg.size) (arg.strlen + 1) arg.byte a)

theorem room_cons (arg : CString) (argv : List CString) :
    room (arg :: argv) = arg.size + room argv :=
  List.sum_cons

theorem pushed_sp (sp len : Nat) (hsp : sp < 2 ^ 32) (haligned : sp % 4 = 0)
    (hlen : len + 1 < 2 ^ 32) :
    usub sp (len + 1) / 4 * 4 =
      if (len + 4) / 4 * 4 ≤ sp then sp - (len + 4) / 4 * 4
      else 2 ^ 32 + sp - (len + 4) / 4 * 4 := by
  unfold usub uint
  split <;> omega

theorem Shows.wp_pushStrings (hsz : sz ≤ KERNBASE) (haligned : sz % PGSIZE = 0)
    (hroom : 2 * PGSIZE ≤ sz) (argv : List CString) :
    ∀ {sp : Nat} {ustack : List Nat} {m : Mem} {s : Space}
      {Q : Option (Nat × List Nat) → Mem → Prop},
      Shows st base m d free rest s → s.Stacked sz (sz - 2 * PGSIZE) → s.FreshKernel img →
      sp % 4 = 0 → sz ≤ sp + PGSIZE → sp ≤ sz → ustack.length + argv.length ≤ MAXARG →
      (argv.map CString.strlen).sum < sp + 4 * ustack.length →
      (sp + PGSIZE < sz + room argv → ∀ m' s', Shows st base m' d free rest s' → Q none m') →
      (sz + room argv ≤ sp + PGSIZE → ∀ m' s', s.Written s' (strings argv sp) →
        Shows st base m' d free rest s' →
        Q (some (sp - room argv, ustack ++ pointers argv sp)) m') →
      wp (pushStrings d argv sp ustack) Q E m := by
  induction argv with
  | nil =>
    intro sp ustack m s Q h _ _ _ hstart _ _ _ _ hok
    have hdone := hok hstart m s (Space.Written.refl s) h
    rw [pointers, List.append_nil] at hdone
    exact hdone
  | cons arg argv ih =>
    intro sp ustack m s Q h hs hkernel hsp hstart hend hcount htotal hfail hok
    rw [room_cons] at hfail hok
    rw [List.map_cons, List.sum_cons] at htotal
    rw [List.length_cons] at hcount
    unfold KERNBASE at hsz
    unfold MAXARG at hcount
    have hsize : arg.size = (arg.strlen + 4) / 4 * 4 := rfl
    have hsp' := pushed_sp sp arg.strlen (by omega) hsp (by omega)
    rw [← hsize] at hsp'
    rw [pushStrings]
    refine wp_ite (fun hfull => by unfold MAXARG at hfull; omega) fun _ => ?_
    simp only [hsp', wp_bind]
    by_cases hfits : arg.size ≤ sp
    · rw [if_pos hfits]
      by_cases hin : sz ≤ sp - arg.size + PGSIZE
      · -- it fits in the page
        apply h.wp_copyout_stack hs hkernel hsz haligned hroom hin (by omega)
        intro m₁ s₁ hwritten hm₁
        rw [if_neg (by decide)]
        refine ih hm₁ (hs.write hwritten) ?_ (by omega) hin (by omega) ?_ ?_ ?_ ?_
        · intro x hx
          rw [hwritten.kernel]
          exact hkernel x hx
        · rw [List.length_append, List.length_singleton]
          unfold MAXARG
          omega
        · rw [List.length_append, List.length_singleton]
          omega
        · intro hlt m' s' hm'
          exact hfail (by omega) m' s' hm'
        · intro hle m' s' hmore hm'
          have hdone := hok (by omega) m' s' ((hwritten.trans hmore).congr fun a => rfl) hm'
          rw [pointers, Nat.sub_add_eq] at hdone
          rw [List.append_assoc]
          exact hdone
      · -- it runs into the guard
        apply h.wp_copyout_guard hs hkernel hsz haligned hroom (Nat.succ_pos _) (by omega)
          (by unfold PGSIZE at *; omega) (by omega)
        intro m₁ s₁ hm₁
        rw [if_pos (by decide)]
        exact hfail (by omega) m₁ s₁ hm₁
    · -- the pointer wraps
      rw [if_neg hfits]
      apply h.wp_copyout_top hs hkernel hsz (by omega) (by unfold PGSIZE; omega) (Nat.succ_pos _)
        (by omega)
      intro m₁ s₁ hm₁
      rw [if_pos (by decide)]
      exact hfail (by omega) m₁ s₁ hm₁

/-- The strings and the words below them fit in one page. -/
def Fits (argv : List CString) : Prop := room argv + 4 * (argv.length + 4) ≤ PGSIZE

theorem length_pointers (argv : List CString) (sp : Nat) :
    (pointers argv sp).length = argv.length := by
  induction argv generalizing sp with
  | nil => rfl
  | cons arg argv ih => rw [pointers, List.length_cons, List.length_cons, ih]

theorem room_mod (argv : List CString) : room argv % 4 = 0 := by
  induction argv with
  | nil => rfl
  | cons arg argv ih =>
    rw [room_cons]
    unfold CString.size
    omega

/-- The words at the stack pointer. -/
def frameWords (argv : List CString) (sz : Nat) : List Nat :=
  ustackWords argv.length (sz - room argv) (pointers argv sz)

/-- The stack pointer that `main` starts with. -/
def frameSp (argv : List CString) (sz : Nat) : Nat := sz - room argv - 4 * (argv.length + 4)

/-- All bytes of the arguments. -/
def frameBytes (argv : List CString) (sz a : Nat) : Option UInt8 :=
  (slice (frameSp argv sz) (4 * (argv.length + 4)) (wordBytes (frameWords argv sz)) a).or
    (strings argv sz a)

theorem Shows.wp_pushArgs {argv : List CString} {Q : Option Nat → Mem → Prop}
    (h : Shows st base m d free rest s) (hsz : sz ≤ KERNBASE) (haligned : sz % PGSIZE = 0)
    (hroom : 2 * PGSIZE ≤ sz) (hs : s.Stacked sz (sz - 2 * PGSIZE)) (hkernel : s.FreshKernel img)
    (hcount : argv.length < MAXARG) (htotal : (argv.map CString.strlen).sum < sz)
    (hfail : ¬ Fits argv → ∀ m' s', Shows st base m' d free rest s' → Q none m')
    (hok : Fits argv → ∀ m' s', s.Written s' (frameBytes argv sz) →
      Shows st base m' d free rest s' → Q (some (frameSp argv sz)) m') :
    wp (pushArgs d argv sz) Q E m := by
  unfold pushArgs
  rw [wp_bind]
  refine h.wp_pushStrings hsz haligned hroom argv hs hkernel ?_ (by omega) (Nat.le_refl _)
    ?_ ?_ ?_ ?_
  · unfold PGSIZE at haligned
    omega
  · rw [List.length_nil]
    omega
  · rw [List.length_nil]
    omega
  · intro hlt m₁ s₁ hm₁
    rw [wp_pure]
    refine hfail (fun hfits => ?_) m₁ s₁ hm₁
    unfold Fits at hfits
    omega
  · intro hle m₁ s₁ hwritten hm₁
    have hmod := room_mod argv
    have hlen : (3 + argv.length + 1) * 4 = 4 * (argv.length + 4) := by omega
    have hsp : usub (sz - room argv) (4 * (argv.length + 4)) = frameSp argv sz := by
      unfold usub uint frameSp
      unfold KERNBASE at hsz
      unfold MAXARG at hcount
      unfold PGSIZE at *
      omega
    simp only [List.nil_append, length_pointers, hlen, hsp, wp_bind]
    have hkernel₁ : s₁.FreshKernel img := fun x hx => by
      rw [hwritten.kernel]
      exact hkernel x hx
    by_cases hfits : Fits argv
    · refine hm₁.wp_copyout_stack (hs.write hwritten) hkernel₁ hsz haligned hroom ?_ ?_ ?_
      · unfold Fits at hfits
        unfold frameSp
        omega
      · unfold frameSp
        unfold MAXARG at hcount
        unfold PGSIZE at *
        omega
      · intro m₂ s₂ hmore hm₂
        rw [if_neg (by decide), wp_pure]
        exact hok hfits m₂ s₂ ((hwritten.trans hmore).congr fun a => rfl) hm₂
    · have hover : PGSIZE < room argv + 4 * (argv.length + 4) := Nat.not_le.mp hfits
      refine hm₁.wp_copyout_guard (hs.write hwritten) hkernel₁ hsz haligned hroom (by omega)
        ?_ ?_ ?_ ?_
      · unfold frameSp
        unfold PGSIZE at *
        omega
      · unfold frameSp
        unfold MAXARG at hcount
        unfold PGSIZE at *
        omega
      · unfold frameSp
        unfold MAXARG at hcount
        unfold PGSIZE at *
        omega
      · intro m₂ s₂ hm₂
        rw [if_pos (by decide), wp_pure]
        exact hfail hfits m₂ s₂ hm₂

/-! ### What `main` finds -/

/-- The pointer to the string with index `i`. -/
def argPtr (argv : List CString) (sp i : Nat) : Nat := (pointers argv sp).getD i 0

theorem argPtr_zero (arg : CString) (argv : List CString) (sp : Nat) :
    argPtr (arg :: argv) sp 0 = sp - arg.size := rfl

theorem argPtr_succ (arg : CString) (argv : List CString) (sp i : Nat) :
    argPtr (arg :: argv) sp (i + 1) = argPtr argv (sp - arg.size) i := rfl

theorem CString.strlen_lt_size (arg : CString) : arg.strlen < arg.size := by
  unfold CString.size
  omega

theorem strings_eq_none (argv : List CString) : ∀ {sp a : Nat}, room argv ≤ sp → sp ≤ a →
    strings argv sp a = none := by
  induction argv with
  | nil =>
    intro sp a _ _
    rfl
  | cons arg argv ih =>
    intro sp a hroom ha
    rw [room_cons] at hroom
    have hlt := arg.strlen_lt_size
    rw [strings, ih (by omega) (by omega), Option.none_or]
    exact if_neg (by omega)

/-- A string lies between `sp` and the strings after it. -/
theorem argPtr_bounds (argv : List CString) : ∀ {sp i : Nat} {arg : CString}, room argv ≤ sp →
    argv[i]? = some arg → sp - room argv ≤ argPtr argv sp i ∧
      argPtr argv sp i + arg.strlen + 1 ≤ sp := by
  induction argv with
  | nil =>
    intro sp i arg _ hi
    cases hi
  | cons arg₀ argv ih =>
    intro sp i arg hroom hi
    have hlt := arg₀.strlen_lt_size
    rw [room_cons] at hroom ⊢
    cases i with
    | zero =>
      obtain rfl := Option.some.inj hi
      rw [argPtr_zero]
      omega
    | succ i =>
      rw [argPtr_succ]
      have hbounds := ih (show room argv ≤ sp - arg₀.size by omega) hi
      omega

theorem strings_argPtr (argv : List CString) : ∀ {sp i j : Nat} {arg : CString}, room argv ≤ sp →
    argv[i]? = some arg → j ≤ arg.strlen →
    strings argv sp (argPtr argv sp i + j) = some (arg.byte j) := by
  induction argv with
  | nil =>
    intro sp i j arg _ hi
    cases hi
  | cons arg₀ argv ih =>
    intro sp i j arg hroom hi hj
    rw [room_cons] at hroom
    cases i with
    | zero =>
      obtain rfl := Option.some.inj hi
      rw [argPtr_zero, strings, strings_eq_none argv (by omega) (by omega), Option.none_or, slice,
        if_pos (by omega), Nat.add_sub_cancel_left]
    | succ i => rw [argPtr_succ, strings, ih (by omega) hi hj, Option.some_or]

theorem argPtr_disjoint (argv : List CString) : ∀ {sp i j : Nat} {arg : CString}, room argv ≤ sp →
    i < j → argv[j]? = some arg → argPtr argv sp j + arg.strlen + 1 ≤ argPtr argv sp i := by
  induction argv with
  | nil =>
    intro sp i j arg _ _ hj
    cases hj
  | cons arg₀ argv ih =>
    intro sp i j arg hroom hij hj
    rw [room_cons] at hroom
    obtain ⟨j, rfl⟩ : ∃ j', j = j' + 1 := ⟨j - 1, by omega⟩
    rw [argPtr_succ]
    cases i with
    | zero => exact (argPtr_bounds argv (by omega) hj).2
    | succ i =>
      rw [argPtr_succ]
      exact ih (by omega) (Nat.lt_of_succ_lt_succ hij) hj

/-- The word that user code sees at an address. -/
def Mem.HasWord (m : Mem) (d a w : Nat) : Prop := ∀ j < 4, m.userByte d (a + j) = some (leByte w j)

/-- The arguments are in memory: the words at `esp`, the array they point to and
the strings, all of them apart from each other in the last page. -/
structure ArgsAt (m : Mem) (d sz esp : Nat) (argv : List CString) (ptr : Nat → Nat) : Prop where
  aligned : esp % 4 = 0
  stack : sz ≤ esp + PGSIZE
  ret : m.HasWord d esp 0xffffffff
  argc : m.HasWord d (esp + 4) argv.length
  array : m.HasWord d (esp + 8) (esp + 12)
  pointers : ∀ i < argv.length, m.HasWord d (esp + 12 + 4 * i) (ptr i)
  null : m.HasWord d (esp + 12 + 4 * argv.length) 0
  strings : ∀ i arg, argv[i]? = some arg →
    ∀ j ≤ arg.strlen, m.userByte d (ptr i + j) = some (arg.byte j)
  above : ∀ i < argv.length, esp + 4 * (argv.length + 4) ≤ ptr i
  below : ∀ i arg, argv[i]? = some arg → ptr i + arg.strlen + 1 ≤ sz
  disjoint : ∀ i j arg, i < j → argv[j]? = some arg → ptr j + arg.strlen + 1 ≤ ptr i

theorem Shows.userByte_eq (h : Shows st base m d free rest s) (hs : s.Stacked sz guard)
    (hsz : sz ≤ KERNBASE) (ha : a < sz) (hguard : PGROUNDDOWN a ≠ guard) :
    m.userByte d a = s.byteAt a := by
  obtain ⟨e, b, huser, -, hbyte⟩ := h.mapped_below hs.below hsz ha
  exact hbyte ((hs.reachable _ _ huser).mpr hguard)

/-- The bytes of the frame can be read in its page. -/
theorem Shows.userByte_frame {v : UInt8} (hs : s.Stacked sz (sz - 2 * PGSIZE))
    (hwritten : s.Written s' g) (h' : Shows st base m' d free rest s') (hsz : sz ≤ KERNBASE)
    (haligned : sz % PGSIZE = 0) (hroom : 2 * PGSIZE ≤ sz) (ha : a < sz) (hstack : sz ≤ a + PGSIZE)
    (hg : g a = some v) : m'.userByte d a = some v := by
  have hpage : PGROUNDDOWN a % PGSIZE = 0 ∧ PGROUNDDOWN a < sz ∧
      PGROUNDDOWN a ≠ sz - 2 * PGSIZE := by
    unfold PGROUNDDOWN PGSIZE at *
    omega
  obtain ⟨w, hw⟩ := Option.ne_none_iff_exists'.mp ((hs.below _).mpr ⟨hpage.1, hpage.2.1⟩)
  rw [h'.userByte_eq (hs.write hwritten) hsz ha hpage.2.2, hwritten.bytes a]
  unfold Space.byteAt
  rw [hw, Option.map_some, Option.map_some, hg]
  rfl

theorem Shows.argsAt {argv : List CString} (hs : s.Stacked sz (sz - 2 * PGSIZE))
    (hwritten : s.Written s' (frameBytes argv sz)) (h' : Shows st base m' d free rest s')
    (hsz : sz ≤ KERNBASE) (haligned : sz % PGSIZE = 0) (hroom : 2 * PGSIZE ≤ sz)
    (hfits : Fits argv) :
    ArgsAt m' d sz (frameSp argv sz) argv (argPtr argv sz) := by
  have hmod := room_mod argv
  unfold Fits at hfits
  have hsp : frameSp argv sz + 4 * (argv.length + 4) + room argv = sz := by
    unfold frameSp
    omega
  have hread : ∀ a v, a < sz → sz ≤ a + PGSIZE → frameBytes argv sz a = some v →
      m'.userByte d a = some v := fun a v ha hstack hg =>
    Shows.userByte_frame hs hwritten h' hsz haligned hroom ha hstack hg
  -- the words of the frame
  have hword : ∀ k w, k < argv.length + 4 → (frameWords argv sz).getD k 0 = w →
      m'.HasWord d (frameSp argv sz + 4 * k) w := by
    intro k w hk hw j hj
    refine hread _ _ (by omega) (by omega) ?_
    have hindex : (4 * k + j) / 4 = k ∧ (4 * k + j) % 4 = j := by omega
    unfold frameBytes slice
    rw [if_pos (by omega), Option.some_or, Nat.add_assoc, Nat.add_sub_cancel_left]
    unfold wordBytes
    rw [hindex.1, hindex.2, hw]
  have hargs : ∀ i, (frameWords argv sz).getD (3 + i) 0 = (pointers argv sz ++ [0]).getD i 0 := by
    intro i
    rw [Nat.add_comm]
    rfl
  have hlength := length_pointers argv sz
  have hle : room argv ≤ sz := by omega
  refine ⟨?_, by omega, ?_, ?_, ?_, ?_, ?_, ?_, ?_, ?_, ?_⟩
  · unfold PGSIZE at haligned
    omega
  · exact hword 0 _ (by omega) rfl
  · exact hword 1 _ (by omega) rfl
  · refine hword 2 _ (by omega) ?_
    change usub (sz - room argv) ((argv.length + 1) * 4) = _
    unfold usub uint
    unfold KERNBASE at hsz
    unfold PGSIZE at *
    omega
  · intro i hi
    have hw := hword (3 + i) (argPtr argv sz i) (by omega) (by
      rw [hargs i, List.getD_append _ _ _ _ (by omega)]
      rfl)
    rwa [show frameSp argv sz + 4 * (3 + i) = frameSp argv sz + 12 + 4 * i by omega] at hw
  · have hw := hword (3 + argv.length) 0 (by omega) (by
      rw [hargs, List.getD_append_right _ _ _ _ (by omega), hlength, Nat.sub_self]
      rfl)
    rwa [show frameSp argv sz + 4 * (3 + argv.length) = frameSp argv sz + 12 + 4 * argv.length by
      omega] at hw
  · intro i arg hi j hj
    have hbounds := argPtr_bounds argv hle hi
    refine hread _ _ (by omega) (by omega) ?_
    unfold frameBytes slice
    rw [if_neg (by omega), Option.none_or]
    exact strings_argPtr argv hle hi hj
  · intro i hi
    have hbounds := argPtr_bounds argv hle (List.getElem?_eq_getElem hi)
    omega
  · intro i arg hi
    exact (argPtr_bounds argv hle hi).2
  · intro i j arg hij hj
    exact argPtr_disjoint argv hle hij hj

end Xv6.Vm
