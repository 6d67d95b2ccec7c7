import Xv6.Vm.Growproc
import Xv6.Vm.Stack

/-!
`exec`: a process gets a new address space with a program and its arguments, or
keeps the one that it has.
-/

namespace Xv6.Vm

open Prog

section Definitions

variable (img : Image)

/-- The two pages above the program, and the arguments in the second of them: the
size and the stack pointer. -/
def userStack (pgdir sz : Nat) (argv : List CString) : VmM (Option (Nat × Nat)) := do
  let sz ← allocuvm img pgdir (PGROUNDUP sz) (uint (PGROUNDUP sz + 2 * PGSIZE))
  if sz = 0 then
    return none
  else
    clearpteu pgdir (usub sz (2 * PGSIZE))
    match ← pushArgs pgdir argv sz with
    | none => return none
    | some sp => return some (sz, sp)

def SLASH : UInt8 := 47

/-- The part of the path after its last slash. -/
def lastElement (path : List UInt8) : List UInt8 := (path.reverse.takeWhile (· ≠ SLASH)).reverse

/-- `sizeof(curproc->name)`. -/
def NAMESIZE : Nat := 16

/-- `exec` on an open file. -/
def exec (f : File) (path : List UInt8) (argv : List CString) (p : Proc) : VmM (Int × Proc) := do
  match ← load img f with
  | none => return (-1, p)
  | some (pgdir, sz, entry) =>
    match ← userStack img pgdir sz argv with
    | none =>
      freevm img pgdir
      return (-1, p)
    | some (sz, sp) =>
      let name := (lastElement path).take (NAMESIZE - 1)
      freevm img p.pgdir
      return (0, { sz := sz, pgdir := pgdir, name := name, eip := entry, esp := sp })

end Definitions

variable {img : Image} {st : Stock} {base m : Mem} {d sz : Nat} {free rest : List Nat} {s : Space}
  {E : Panic → Mem → Prop}

/-- Another directory is freed. -/
theorem Shows.wp_freevm_other {d' : Nat} {Q : Unit → Mem → Prop}
    (h : Shows st base m d free (rest ++ base.owned d') s) (hE : KfreeStops img st E)
    (hQ : ∀ m' free', Shows st base m' d free' rest s → Q () m') : wp (freevm img d') Q E m := by
  have hkept : ∀ q ∈ d' :: base.tables d', m.page q = base.page q := fun q hq =>
    h.kept q (List.mem_append_right _
      (List.mem_cons.mpr ((List.mem_cons.mp hq).imp_right (List.mem_append_left _))))
  have howned : m.owned d' = base.owned d' := Mem.owned_congr hkept
  have hother : Shows st m m d' free (rest ++ m.owned d) (m.space d') := by
    refine ⟨h.list, ?_, fun _ _ => rfl, fun _ _ => rfl, fun _ _ _ => rfl, fun _ _ _ _ => rfl⟩
    rw [howned]
    refine (List.Perm.append_left free ?_).trans h.all
    rw [List.append_assoc, List.append_assoc]
    exact List.perm_append_comm.append_left rest
  refine hother.wp_freevm hE fun m' free' hm' => ?_
  refine hQ m' free' (h.of_pages ?_ hm'.list ?_ ?_)
  · exact fun q hq => hm'.kept q (List.mem_append_right _ hq)
  · have hall := hm'.all.trans h.all.symm
    rw [← List.append_assoc, ← List.append_assoc free] at hall
    exact (List.perm_append_right_iff _).mp hall
  · intro q hq
    rw [hm'.kept q (List.mem_append_left _ hq), h.kept q (List.mem_append_left _ hq)]

theorem Space.Loaded.round {g : Nat → Option UInt8} (h : s.Loaded sz g) (hsz : sz < KERNBASE) :
    s.Loaded (PGROUNDUP sz) g where
  below := by
    intro x
    rw [h.below x]
    exact and_congr_right fun haligned => (lt_PGROUNDUP haligned (Nat.le_of_lt hsz)).symm
  entries := h.entries
  bytes := h.bytes
  inside := by
    intro a ha
    have := h.inside a ha
    unfold PGROUNDUP uint PGSIZE
    unfold KERNBASE at hsz
    omega

theorem stackEnd_eq {newsz : Nat} (hsz : sz < KERNBASE)
    (hnew : newsz = uint (PGROUNDUP sz + 2 * PGSIZE)) :
    PGROUNDUP sz ≤ KERNBASE ∧ newsz = PGROUNDUP sz + 2 * PGSIZE := by
  unfold PGROUNDUP uint PGSIZE at *
  unfold KERNBASE at *
  omega

/-- The space when the stack pages are there. -/
theorem Shows.wp_stackPages {newsz : Nat} {Q : Nat → Mem → Prop} {g : Nat → Option UInt8}
    (h : Shows st base m d free rest s) (hE : KfreeStops img st E) (hloaded : s.Loaded sz g)
    (hkernel : s.FreshKernel img) (hsz : sz < KERNBASE)
    (hnew : newsz = uint (PGROUNDUP sz + 2 * PGSIZE)) (hnone : ∀ m', Q 0 m')
    (hok : ∀ m' free' s', newsz < KERNBASE → s'.FreshKernel img → s'.Loaded newsz g →
      Shows st base m' d free' rest s' → Q newsz m') :
    wp (allocuvm img d (PGROUNDUP sz) newsz) Q E m := by
  obtain ⟨hup, hend⟩ := stackEnd_eq hsz hnew
  refine h.wp_allocuvm_loaded hE (hloaded.round hsz) hup ?_ ?_ ?_
  · intro hless
    omega
  · exact fun m' _ _ _ _ => hnone m'
  · intro m' free' s' sz' hk hmax hlt hloaded' hm'
    obtain rfl : sz' = newsz := by omega
    exact hok m' free' s' hlt (fun x hx => (congrFun hk x).trans (hkernel x hx)) hloaded' hm'

/-- `exec` lays out the arguments in the page above the guard if they fit there,
and otherwise changes nothing. -/
theorem exec_arguments {f : File} {p : Proc} {m₁ m₂ : Mem} {sz₀ entry : Nat} (path : List UInt8)
    (argv : List CString) (h : Sound img m p.pgdir free rest)
    (hload : load img f m = (.ok (some (d, sz₀, entry)), m₁))
    (halloc : allocuvm img d (PGROUNDUP sz₀) (uint (PGROUNDUP sz₀ + 2 * PGSIZE)) m₁ = (.ok sz, m₂))
    (hsz : sz ≠ 0) (hcount : argv.length < MAXARG) (htotal : (argv.map CString.strlen).sum < sz) :
    ∃ r m', exec img f path argv p m = (.ok r, m') ∧
      (Fits argv ∧ r = (0, ⟨sz, d, (lastElement path).take (NAMESIZE - 1), entry, r.2.esp⟩) ∧
          (∃ ptr, ArgsAt m' d sz r.2.esp argv ptr) ∧ (∃ free', Sound img m' d free' rest) ∧
          (∀ q ∈ rest, m'.page q = m.page q) ∨
        ¬ Fits argv ∧ r = (-1, p) ∧ (∃ free', m'.FreeList free' ∧ free'.Perm free) ∧
          ∀ q ∈ rest ++ m.owned p.pgdir, m'.page q = m.page q) := by
  obtain ⟨st, husable, hpool⟩ := h.pool
  have hE : KfreeStops img st fun _ _ => False := kfreeStops_of_usable husable
  -- what is known of the new directory when it has its stack pages
  obtain ⟨free₁, s₁, g, hsz₀, hkernel₁, hloaded₁, hm₁⟩ : ∃ free₁ s₁ g, sz₀ < KERNBASE ∧
      s₁.FreshKernel img ∧ s₁.Loaded sz₀ g ∧
      Shows st m m₁ d free₁ (rest ++ m.owned p.pgdir) s₁ := by
    have hspec : wp (load img f) (fun r m₁ => r = some (d, sz₀, entry) → ∃ free₁ s₁ g,
        sz₀ < KERNBASE ∧ s₁.FreshKernel img ∧ s₁.Loaded sz₀ g ∧
        Shows st m m₁ d free₁ (rest ++ m.owned p.pgdir) s₁) (fun _ _ => False) m := by
      refine hpool.wp_load hE ?_ ?_
      · intro _ _ _ hr
        cases hr
      · intro d' m' free' s' sz' _ hlt hkernel _ hloaded hm' hr
        obtain ⟨rfl, hr'⟩ := Prod.mk.inj (Option.some.inj hr)
        obtain ⟨rfl, -⟩ := Prod.mk.inj hr'
        exact ⟨free', s', _, hlt, hkernel, hloaded, hm'⟩
    exact of_wp_ok hspec hload rfl
  obtain ⟨newsz, hnewsz⟩ : ∃ newsz, newsz = uint (PGROUNDUP sz₀ + 2 * PGSIZE) := ⟨_, rfl⟩
  rw [← hnewsz] at halloc
  obtain ⟨free₂, s₂, hlt, hkernel₂, hloaded₂, hm₂, hnew⟩ : ∃ free₂ s₂, sz < KERNBASE ∧
      s₂.FreshKernel img ∧ s₂.Loaded sz g ∧ Shows st m m₂ d free₂ (rest ++ m.owned p.pgdir) s₂ ∧
      sz = newsz := by
    have hspec : wp (allocuvm img d (PGROUNDUP sz₀) newsz) (fun r m₂ => r = sz → ∃ free₂ s₂,
          sz < KERNBASE ∧ s₂.FreshKernel img ∧ s₂.Loaded sz g ∧
          Shows st m m₂ d free₂ (rest ++ m.owned p.pgdir) s₂ ∧ sz = newsz)
        (fun _ _ => False) m₁ := by
      refine hm₁.wp_stackPages hE hloaded₁ hkernel₁ hsz₀ hnewsz ?_ ?_
      · intro _ hr
        exact absurd hr.symm hsz
      · intro m' free' s' hlt hkernel hloaded hm' hr
        subst hr
        exact ⟨free', s', hlt, hkernel, hloaded, hm', rfl⟩
    exact of_wp_ok hspec halloc rfl
  obtain ⟨-, hend⟩ := stackEnd_eq hsz₀ (hnew.trans hnewsz)
  have haligned : sz % PGSIZE = 0 := by
    have := PGROUNDUP_aligned sz₀
    unfold PGSIZE at *
    omega
  have hroom : 2 * PGSIZE ≤ sz := by omega
  have hguard : usub sz (2 * PGSIZE) = sz - 2 * PGSIZE := by
    unfold usub uint PGSIZE at *
    unfold KERNBASE at hlt
    omega
  obtain ⟨⟨e, b⟩, huser⟩ := Option.ne_none_iff_exists'.mp
    ((hloaded₂.below (sz - 2 * PGSIZE)).mpr (by unfold PGSIZE at *; omega))
  have hstacked := hloaded₂.stacked huser
  have hrest : sz - 2 * PGSIZE < KERNBASE := by omega
  apply exists_of_wp
  unfold exec
  rw [wp_bind]
  refine wp_of_run hload ?_
  unfold userStack
  simp only [wp_bind, ← hnewsz]
  refine wp_of_run halloc ?_
  rw [if_neg hsz, hguard, wp_bind]
  refine hm₂.wp_clearpteu hrest (by unfold PGSIZE at *; omega) huser fun m₃ hm₃ => ?_
  rw [wp_bind]
  refine hm₃.wp_pushArgs (Nat.le_of_lt hlt) haligned hroom hstacked hkernel₂ hcount htotal ?_ ?_
  · intro hfits m₄ s₄ hm₄
    rw [wp_pure, wp_bind]
    refine hm₄.wp_freevm hE fun m' free' hm' => ?_
    rw [wp_pure]
    exact Or.inr ⟨hfits, rfl, ⟨free', hm'.list, hpool.free_perm hm'⟩, hm'.kept⟩
  · intro hfits m₄ s₄ hwritten hm₄
    rw [wp_pure, wp_bind]
    refine hm₄.wp_freevm_other hE fun m' free' hm' => ?_
    rw [wp_pure]
    refine Or.inl ⟨hfits, rfl, ⟨argPtr argv sz, ?_⟩, ⟨free', hm'.sound husable⟩, hm'.kept⟩
    exact Shows.argsAt hstacked hwritten hm' (Nat.le_of_lt hlt) haligned hroom hfits

/-- The arguments of a program that is called with its name alone. -/
def tinyArgs : List CString := [⟨[97], by decide⟩]

theorem exec_arguments_tinyFile : ∃ d esp m' ptr,
    exec smallImage tinyFile [SLASH, 97] tinyArgs smallProc wideMachine =
      (.ok (0, ⟨12288, d, [97], 0, esp⟩), m') ∧ ArgsAt m' d 12288 esp tinyArgs ptr := by
  obtain ⟨d, m₁, hload, hbelow, free₁, hlength, hsound⟩ := load_tinyFile
  have hup : PGROUNDUP 4 = 4096 ∧ PGROUNDUP 4096 = 4096 ∧
      uint (4096 + 2 * PGSIZE) = 12288 := by decide
  have hpages : pages (PGROUNDUP 4096) (PGROUNDUP 12288) = [4096, 8192] := by decide +kernel
  have hbelow' : m₁.UserBelow d 4096 := by
    intro x hx haligned
    rw [hbelow x hx haligned, hup.1, hup.2.1]
  obtain ⟨r, m₂, free₂, halloc, -, -, hcases⟩ :=
    hsound.grow (show 4096 ≤ 12288 by decide) (by decide) hbelow'
  rw [hpages] at hcases
  have hneed : (m₁.space d).need [4096, 8192] ≤ 4 := by
    unfold Space.need Space.need Space.need Space.missing
    split <;> split <;> omega
  obtain ⟨rfl, -⟩ | ⟨-, hshort, -⟩ := hcases
  · have hstack : allocuvm smallImage d (PGROUNDUP 4) (uint (PGROUNDUP 4 + 2 * PGSIZE)) m₁ =
        (.ok 12288, m₂) := by
      rw [hup.1, hup.2.2]
      exact halloc
    obtain ⟨⟨v, p'⟩, m', hrun, hcases⟩ := exec_arguments (p := smallProc) [SLASH, 97]
      tinyArgs wideMachine_sound hload hstack (by decide) (by decide) (by decide)
    obtain ⟨-, hr, ⟨ptr, hargs⟩, -⟩ | ⟨hfits, -⟩ := hcases
    · refine ⟨d, p'.esp, m', ptr, ?_, hargs⟩
      rw [hrun, hr]
      rfl
    · exact absurd (show Fits tinyArgs by unfold Fits; decide) hfits
  · omega

end Xv6.Vm
