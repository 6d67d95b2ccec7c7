import Xv6.Vm.Kvm

/-!
`copyuvm`: the child's address space has the parent's bytes in pages of its own.
-/

namespace Xv6.Vm

open Prog

variable {img : Image} {st : Stock} {base m : Mem} {d v a src sz : Nat} {free rest : List Nat}
  {s : Space} {E : Panic → Mem → Prop}

/-- The entry of a copied page. -/
def copyPte (p e : Nat) : Nat := V2P p ||| PTE_FLAGS e ||| PTE_P

/-- Copies of the pages of `src`. -/
abbrev Space.Copied (s s' : Space) (base : Mem) (src : Nat) (free l : List Nat) : Prop :=
  Changed (fun x v => ∃ e p, base.mapping src x = some e ∧ p ∈ free ∧
    v = some (copyPte p e, base.page (pageOf e))) s s' l

/-- The pages of `src` are among those of `rest`. -/
def Among (base : Mem) (src : Nat) (rest : List Nat) : Prop := ∀ p ∈ base.owned src, p ∈ rest

theorem Shows.mapping_among (h : Shows st base m d free rest s) (hsrc : Among base src rest)
    (x : Nat) :
    m.table src (PDX x) = base.table src (PDX x) ∧ m.mapping src x = base.mapping src x := by
  have hpage : ∀ p ∈ src :: base.tables src, m.page p = base.page p := fun p hp =>
    h.kept p (hsrc p (List.mem_cons.mpr ((List.mem_cons.mp hp).imp_right (List.mem_append_left _))))
  exact ⟨Mem.table_congr (hpage src List.mem_cons_self) _, Mem.mapping_congr hpage x⟩

theorem Shows.wp_copyuvmLoop (hsz : sz ≤ KERNBASE) (hsrc : Among base src rest)
    (hE : KfreeStops img st E) (n : Nat) :
    ∀ {i : Nat} {m : Mem} {free : List Nat} {s : Space} {Q : Bool → Mem → Prop},
      Shows st base m d free rest s → i % PGSIZE = 0 → sz ≤ i + n * PGSIZE →
      ((∃ x ∈ pages i sz, base.mapping src x = none) →
        ∀ m, E .copyuvmNoPte m ∧ E .copyuvmNotPresent m) →
      (∀ x ∈ pages i sz, s.user x = none) →
      (∀ m' free' s', free.length < s.need (pages i sz) → Shows st base m' d free' rest s' →
        Q false m') →
      (∀ m' free' s', s.need (pages i sz) ≤ free.length → s.Copied s' base src free (pages i sz) →
        Shows st base m' d free' rest s' → Q true m') →
      wp (copyuvmLoop img src d sz n i) Q E m := by
  induction n with
  | zero =>
    intro i m free s Q h _ hend _ _ _ hok
    rw [pages_of_le (by omega)] at hok
    exact hok m free s (Nat.zero_le _) .nil h
  | succ n ih =>
    intro i m free s Q h haligned hend habsent hfresh hfail hok
    have hrounds : (n + 1) * PGSIZE = n * PGSIZE + PGSIZE := by ring
    rw [copyuvmLoop]
    apply wp_ite
    · intro hlt
      have hi : i < KERNBASE := lt_of_lt_of_le hlt hsz
      rw [pages_of_lt hlt] at habsent hfresh hfail hok
      obtain ⟨l, hl⟩ : ∃ l, l = pages (i + PGSIZE) sz := ⟨_, rfl⟩
      rw [← hl] at habsent hfresh hfail hok
      rw [Space.need] at hfail hok
      have haligned' : (i + PGSIZE) % PGSIZE = 0 := by rw [Nat.add_mod_right, haligned]
      have hil : i ∉ l := by
        rw [hl, mem_pages haligned']
        unfold PGSIZE
        omega
      obtain ⟨htable, hmapping⟩ := h.mapping_among hsrc i
      rw [wp_bind]
      apply wp_walk
      cases ht : m.table src (PDX i) with
      | none =>
        refine (habsent ⟨i, List.mem_cons_self, ?_⟩ m).1
        unfold Mem.mapping Mem.pte Mem.slot
        rw [← htable, ht]
        rfl
      | some t =>
        have hpte : m.pte src i = some (m.word t (PTX i)) := Mem.pte_of_table ht
        obtain ⟨e, he⟩ : ∃ e, e = m.word t (PTX i) := ⟨_, rfl⟩
        simp only [Option.map_some]
        rw [wp_bind, wp_gets, wp_bind, wp_panicIf, ← he]
        rw [← he] at hpte
        constructor
        · intro hnot
          refine (habsent ⟨i, List.mem_cons_self, ?_⟩ m).2
          rw [← hmapping]
          unfold Mem.mapping
          rw [hpte, Option.filter_some, if_neg (by simpa using hnot)]
        · intro hpresent
          have hmap : base.mapping src i = some e := by
            rw [← hmapping]
            exact Mem.mapping_eq_some.mpr ⟨hpte, not_not.mp hpresent⟩
          have hbytes : m.page (pageOf e) = base.page (pageOf e) :=
            h.kept _ (hsrc _ (Mem.pageOf_mem_owned hi hmap))
          rw [wp_bind]
          apply h.wp_kalloc
          · intro hempty
            rw [if_pos rfl]
            exact hfail m free s (by rw [hempty, List.length_nil]; omega) h
          · intro p free' hfree hpos
            subst hfree
            rw [if_neg hpos, wp_bind, wp_modify, wp_bind]
            have htaken := h.take (base.page (pageOf e))
            rw [← hbytes] at htaken
            have hback := fun q hq =>
              h.pool.kept_head base (m.page (pageOf e)) q (List.mem_append_left _ hq)
            refine htaken.wp_mappages hi haligned (Nat.mod_lt _ (by decide)) ?_ ?_ ?_
            · intro hne
              exact absurd (hfresh i List.mem_cons_self) hne
            · intro hempty htable
              rw [if_neg (by decide), wp_bind]
              refine htaken.wp_kfree hE fun hgiven => ?_
              refine hfail _ _ _ ?_ (hgiven.rebase hback)
              rw [hempty, Space.missing, htable]
              simp only [List.length_cons, List.length_nil, Bool.false_eq_true, if_false]
              omega
            · intro m₂ hmissing hm₂
              rw [if_pos rfl]
              rw [Mem.setPage_page, hbytes] at hm₂
              have hm₂' := hm₂.rebase (hbytes ▸ hback)
              rw [uint_next hi.le]
              refine ih hm₂' haligned' (by omega) ?_ ?_ ?_ ?_
              all_goals rw [← hl]
              · rintro ⟨x, hx, hnone⟩
                exact habsent ⟨x, List.mem_cons_of_mem _ hx, hnone⟩
              · intro x hx
                have hxi : x ≠ i := fun heq => hil (heq ▸ hx)
                rw [Space.setUser_of_ne _ hxi]
                exact hfresh x (List.mem_cons_of_mem _ hx)
              · intro m' free'' s' hshort hm'
                rw [Space.need_setUser, List.length_drop] at hshort
                refine hfail m' free'' s' ?_ hm'
                rw [List.length_cons]
                omega
              · intro m' free'' s' hle hcopied hm'
                rw [Space.need_setUser, List.length_drop] at hle
                refine hok m' free'' s' (by rw [List.length_cons]; omega)
                  (hcopied.cons hil ⟨e, p, hmap, List.mem_cons_self, rfl⟩ ?_) hm'
                rintro x _ ⟨e', q, hmap', hq, hv⟩
                exact ⟨e', q, hmap', List.mem_cons_of_mem _ (List.mem_of_mem_drop hq), hv⟩
    · intro hge
      rw [pages_of_le (Nat.not_lt.mp hge)] at hok
      exact hok m free s (Nat.zero_le _) .nil h

/-- The rest of `copyuvm` once `setupkvm` has made the directory. -/
def copyInto (img : Image) (src d sz : Nat) : VmM Nat := do
  if ← copyuvmLoop img src d sz (sz / PGSIZE + 1) 0 then
    return d
  else
    freevm img d
    return 0

theorem copyuvm_eq : copyuvm img src sz =
    setupkvm img >>= fun d => if d = 0 then pure 0 else copyInto img src d sz := rfl

/-- The pages that `copyuvm` takes for a space of this size. -/
def copyPages (sz : Nat) : Nat := kernelPages + Space.empty.need (pages 0 sz)

theorem need_congr {t : Space} {l : List Nat} (h : ∀ a ∈ l, s.table (PDX a) = t.table (PDX a)) :
    s.need l = t.need l := by
  induction l generalizing s t with
  | nil => rfl
  | cons a l ih =>
    have hnext : ∀ b ∈ l,
        (s.addTable (PDX a)).table (PDX b) = (t.addTable (PDX a)).table (PDX b) := by
      intro b hb
      by_cases hab : PDX b = PDX a
      · rw [hab, Space.addTable_self, Space.addTable_self]
      · rw [Space.addTable_of_ne _ hab, Space.addTable_of_ne _ hab]
        exact h b (List.mem_cons_of_mem _ hb)
    rw [Space.need, Space.need, ih hnext, Space.missing, Space.missing, h a List.mem_cons_self]

/-- A new directory has no table for user pages. -/
theorem Space.New.need (h : s.New img) (hsz : sz ≤ KERNBASE) :
    s.need (pages 0 sz) = Space.empty.need (pages 0 sz) := by
  refine need_congr fun x hx => ?_
  obtain ⟨-, -, hlt⟩ := (mem_pages (Nat.zero_mod _)).mp hx
  have hpdx := PDX_lt_of_user (hlt.trans_le hsz)
  rw [PDX_KERNBASE] at hpdx
  refine Bool.eq_false_iff.mpr fun htable => ?_
  have hkernel := h.table _ htable
  rw [kernelTable, decide_eq_true_eq] at hkernel
  omega

theorem Shows.wp_copyInto {Q : Nat → Mem → Prop} (h : Shows st base m d free rest s)
    (hs : s.New img) (hsz : sz ≤ KERNBASE) (hsrc : Among base src rest) (hE : KfreeStops img st E)
    (habsent : (∃ x ∈ pages 0 sz, base.mapping src x = none) →
      ∀ m, E .copyuvmNoPte m ∧ E .copyuvmNotPresent m)
    (hfail : ∀ m' free', free.length + kernelPages < copyPages sz → Pool st base m' free' rest →
      Q 0 m')
    (hok : ∀ m' free' s', copyPages sz ≤ free.length + kernelPages →
      s.Copied s' base src free (pages 0 sz) → Shows st base m' d free' rest s' → Q d m') :
    wp (copyInto img src d sz) Q E m := by
  unfold copyPages at hfail hok
  rw [← hs.need hsz] at hfail hok
  unfold copyInto
  rw [wp_bind]
  refine h.wp_copyuvmLoop hsz hsrc hE _ (Nat.zero_mod _) ?_ habsent ?_ ?_ ?_
  · unfold PGSIZE
    omega
  · intro x _
    rw [hs.user]
  · intro m₁ free₁ s₁ hshort hm₁
    rw [if_neg (by decide), wp_bind]
    refine hm₁.wp_freevm hE fun m₂ free₂ hm₂ => ?_
    rw [wp_pure]
    exact hfail m₂ free₂ (by omega) hm₂
  · intro m₁ free₁ s₁ hle hcopied hm₁
    rw [if_pos rfl, wp_pure]
    exact hok m₁ free₁ s₁ (by omega) hcopied hm₁

theorem Pool.wp_copyuvm {Q : Nat → Mem → Prop} (h : Pool st base m free rest) (hsz : sz ≤ KERNBASE)
    (hsrc : Among base src rest) (hE : KfreeStops img st E)
    (habsent : (∃ x ∈ pages 0 sz, base.mapping src x = none) →
      ∀ m, E .copyuvmNoPte m ∧ E .copyuvmNotPresent m)
    (hfail : ∀ m' free', Pool st base m' free' rest → Q 0 m')
    (hok : ∀ d m' free' s', d ≠ 0 → Shows st base m' d free' rest s' → Q d m') :
    wp (copyuvm img src sz) Q E m := by
  rw [copyuvm_eq, wp_bind]
  refine h.wp_setupkvm hE ?_ ?_
  · intro m₁ free₁ _ hm₁
    rw [if_pos rfl]
    exact hfail m₁ free₁ hm₁
  · intro d m₁ free₁ s₁ hpos _ hnew hm₁
    rw [if_neg hpos]
    exact hm₁.wp_copyInto hnew hsz hsrc hE habsent (fun m' free' _ => hfail m' free')
      fun m' free' s' _ _ hm' => hok d m' free' s' hpos hm'

end Xv6.Vm
