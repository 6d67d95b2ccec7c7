import Xv6.Lib.Transition

/-!
Concurrent `iput` calls on one unlinked inode. Each call takes the sleep lock,
reads `ref` under `icache.lock`, frees the inode if it read 1, releases the
sleep lock and only then decrements `ref`. Between the release and the
decrement another call can read the old count, so it is possible that no call
reads 1 and the inode is never freed.
-/

namespace Xv6.IputRace

open Transition

/-- Where a call of `iput` is. `got r` follows the read of `ref`. -/
inductive Pc where
  | start
  | locked
  | got (r : Int)
  | unlocking
  | dropping
  | done
deriving DecidableEq

inductive Act where
  | acquiresleep
  | readRef
  | free
  | releasesleep
  | dropRef
deriving DecidableEq

/-- The cached inode, its copy on disk, and the calls. `frees` counts how often
the inode was truncated and written back with `type = 0`. -/
structure State (P : Type) where
  ref : Int
  valid : Bool
  nlink : Int
  type : Int
  size : Nat
  diskType : Int
  diskSize : Nat
  lock : Option P
  pc : P → Pc
  frees : Nat

/-- `valid = 1`, `nlink = 0` and `ref` equal to the number of calls. -/
def init (P : Type) [Fintype P] (type : Int) (size : Nat) : State P :=
  { ref := Fintype.card P, valid := true, nlink := 0, type := type, size := size
    diskType := type, diskSize := size, lock := none, pc := fun _ => .start, frees := 0 }

variable {P : Type} [DecidableEq P]

def State.goto (s : State P) (p : P) (pc : Pc) : State P :=
  { s with pc := Function.update s.pc p pc }

/-- `itrunc(ip); ip->type = 0; iupdate(ip); ip->valid = 0`. -/
def State.freeInode (s : State P) : State P :=
  { s with
    size := 0, type := 0, diskSize := 0, diskType := 0, valid := false
    frees := s.frees + 1 }

def step (s : State P) : P × Act → Option (State P)
  | (p, a) => match a, s.pc p with
    | .acquiresleep, .start =>
      if s.lock.isSome then none
      else some ({ s with lock := some p }.goto p .locked)
    | .readRef, .locked =>
      some (s.goto p (if s.valid = true ∧ s.nlink = 0 then .got s.ref else .unlocking))
    | .free, .got r => if r = 1 then some (s.freeInode.goto p .unlocking) else none
    | .releasesleep, .got r =>
      if r = 1 then none else some ({ s with lock := none }.goto p .dropping)
    | .releasesleep, .unlocking => some ({ s with lock := none }.goto p .dropping)
    | .dropRef, .dropping => some ({ s with ref := s.ref - 1 }.goto p .done)
    | _, _ => none

inductive Step (s : State P) : P × Act → State P → Prop where
  | acquire (p : P) (hpc : s.pc p = .start) (hl : s.lock = none) :
      Step s (p, .acquiresleep) ({ s with lock := some p }.goto p .locked)
  | read (p : P) (hpc : s.pc p = .locked) (hv : s.valid = true ∧ s.nlink = 0) :
      Step s (p, .readRef) (s.goto p (.got s.ref))
  | skip (p : P) (hpc : s.pc p = .locked) (hv : ¬ (s.valid = true ∧ s.nlink = 0)) :
      Step s (p, .readRef) (s.goto p .unlocking)
  | free (p : P) (hpc : s.pc p = .got 1) :
      Step s (p, .free) (s.freeInode.goto p .unlocking)
  | release (p : P) (hpc : s.pc p = .unlocking ∨ ∃ r ≠ 1, s.pc p = .got r) :
      Step s (p, .releasesleep) ({ s with lock := none }.goto p .dropping)
  | drop (p : P) (hpc : s.pc p = .dropping) :
      Step s (p, .dropRef) ({ s with ref := s.ref - 1 }.goto p .done)

variable {s : State P} {p : P} {pc : Pc} {type : Int} {size : Nat} {ls : List (P × Act)}

theorem step_cases {s' : State P} {l : P × Act} (h : step s l = some s') : Step s l s' := by
  obtain ⟨p, a⟩ := l
  simp only [step] at h
  split at h
  · rename_i hpc
    split_ifs at h with hl
    cases h
    exact .acquire p hpc (by simpa using hl)
  · rename_i hpc
    cases h
    split_ifs with hv
    · exact .read p hpc hv
    · exact .skip p hpc hv
  · rename_i r hpc
    split_ifs at h with hr
    cases h
    exact .free p (hr ▸ hpc)
  · rename_i r hpc
    split_ifs at h with hr
    cases h
    exact .release p (Or.inr ⟨r, hr, hpc⟩)
  · rename_i hpc
    cases h
    exact .release p (Or.inl hpc)
  · rename_i hpc
    cases h
    exact .drop p hpc
  · cases h

@[simp] theorem goto_pc_self (s : State P) (p : P) (pc : Pc) : (s.goto p pc).pc p = pc :=
  Function.update_self ..

theorem goto_pc_of_ne {q : P} (h : q ≠ p) : (s.goto p pc).pc q = s.pc q :=
  Function.update_of_ne h ..

/-- The call holds the sleep lock. -/
def Pc.Holds : Pc → Prop
  | .locked | .got _ | .unlocking => True
  | _ => False

/-- The call has not dropped its reference yet. -/
def Pc.Open (pc : Pc) : Prop := pc ≠ .done

instance : DecidablePred Pc.Open := fun pc => inferInstanceAs (Decidable (pc ≠ .done))

/-- Every call other than `p` has dropped its reference. -/
def Alone (s : State P) (p : P) : Prop := ∀ q, q ≠ p → s.pc q = .done

/-- Either nothing has been freed yet, or one call freed the inode after every
other call had dropped its reference. -/
inductive Phase (type : Int) (size : Nat) (s : State P) : Prop where
  | live (hv : s.valid = true) (hf : s.frees = 0) (hd : s.diskType = type ∧ s.diskSize = size)
  | freed (p : P) (hv : s.valid = false) (hf : s.frees = 1)
      (hd : s.diskType = 0 ∧ s.diskSize = 0) (ha : Alone s p)
      (hp : s.pc p = .unlocking ∨ s.pc p = .dropping ∨ s.pc p = .done)

variable [Fintype P]

structure Inv (type : Int) (size : Nat) (s : State P) : Prop where
  ref_eq : s.ref = count Pc.Open s.pc
  lock_iff : ∀ p, s.lock = some p ↔ (s.pc p).Holds
  nlink_eq : s.nlink = 0
  got_one : ∀ p, s.pc p = .got 1 → Alone s p ∧ s.valid = true
  phase : Phase type size s

omit [DecidableEq P] in
theorem inv_init (type : Int) (size : Nat) : Inv type size (init P type size) := by
  refine ⟨?_, ?_, rfl, ?_, .live rfl rfl ⟨rfl, rfl⟩⟩
  · simp [init, count, Pc.Open]
  · intro p
    simp [init, Pc.Holds]
  · intro p hp
    simp [init] at hp

/-- If `ref` is 1, a call that has not returned is the only one. -/
theorem alone_of_ref_eq_one (href : s.ref = count Pc.Open s.pc) (hone : s.ref = 1)
    (hp : s.pc p ≠ .done) : Alone s p := by
  intro q hq
  by_contra hnot
  have hpair : ({p, q} : Finset P) ⊆ Finset.univ.filter (fun q => s.pc q ≠ .done) := by
    intro x hx
    simp only [Finset.mem_insert, Finset.mem_singleton] at hx
    rcases hx with rfl | rfl <;> simpa
  have hcard : 2 ≤ count Pc.Open s.pc := by
    have := Finset.card_le_card hpair
    rwa [Finset.card_pair (Ne.symm hq)] at this
  omega

theorem ref_eq_one_of_alone (href : s.ref = count Pc.Open s.pc) (hp : s.pc p ≠ .done)
    (ha : Alone s p) : s.ref = 1 := by
  have hset : Finset.univ.filter (fun q => (s.pc q).Open) = {p} := by
    ext q
    simp only [Finset.mem_filter, Finset.mem_univ, true_and, Finset.mem_singleton]
    constructor
    · intro hq
      by_contra hne
      exact hq (ha q hne)
    · rintro rfl
      exact hp
  rw [href, count, hset, Finset.card_singleton]
  rfl

omit [Fintype P] in
theorem alone_goto {q : P} (ha : Alone s q) (hpc : p ≠ q → pc = .done) : Alone (s.goto p pc) q := by
  intro x hx
  by_cases hxp : x = p
  · subst hxp
    rw [goto_pc_self]
    exact hpc hx
  · rw [goto_pc_of_ne hxp]
    exact ha x hx

omit [Fintype P] in
/-- A step that leaves the inode alone keeps the phase, as long as the call
that freed the inode only moves on. -/
theorem phase_goto (h : Phase type size s) (hnot : s.pc p ≠ .done)
    (hmove : s.pc p = .unlocking ∨ s.pc p = .dropping → pc = .dropping ∨ pc = .done)
    (hstart : s.valid = true ∨ s.pc p = .unlocking ∨ s.pc p = .dropping) :
    Phase type size (s.goto p pc) := by
  cases h with
  | live hv hf hd => exact .live hv hf hd
  | freed q hv hf hd ha hq =>
    have hpq : p = q := by
      by_contra hne
      exact hnot (ha p hne)
    subst hpq
    refine .freed p hv hf hd (alone_goto ha (fun hne => absurd rfl hne)) ?_
    rw [goto_pc_self]
    rcases hstart with hv' | hstart
    · exact absurd (hv.symm.trans hv') (by simp)
    · exact Or.inr (hmove hstart)

/-- A call that has not got past its read finds the inode valid, since it would
have been freed only after this call had returned. -/
theorem Inv.valid_of_before (hi : Inv type size s)
    (hp : s.pc p = .start ∨ s.pc p = .locked ∨ ∃ r, s.pc p = .got r) : s.valid = true := by
  cases hi.phase with
  | live hv hf hd => exact hv
  | freed q hv hf hd ha hq =>
    by_cases hpq : p = q
    · subst hpq
      rcases hp with hp | hp | ⟨r, hp⟩ <;> simp [hp] at hq
    · have := ha p hpq
      rcases hp with hp | hp | ⟨r, hp⟩ <;> simp [hp] at this

omit [DecidableEq P] in
theorem Inv.frees_of_valid (hi : Inv type size s) (hv : s.valid = true) : s.frees = 0 := by
  cases hi.phase with
  | live hv hf hd => exact hf
  | freed q hv' hf hd ha hq => exact absurd (hv'.symm.trans hv) (by simp)

theorem inv_step {s' : State P} {l : P × Act} (hi : Inv type size s) (h : step s l = some s') :
    Inv type size s' := by
  have href := hi.ref_eq
  -- moving `p` between positions before its decrement keeps the count
  have hsame (p : P) (pc : Pc) (h0 : s.pc p ≠ .done) (h1 : pc ≠ .done) :
      s.ref = count Pc.Open (s.goto p pc).pc := by
    have hcount : count Pc.Open (s.goto p pc).pc = count Pc.Open s.pc :=
      count_update_same (iff_of_true h0 h1)
    rw [href, hcount]
  have hgot (p : P) (pc : Pc) (hpc : pc ≠ .got 1) (h0 : s.pc p ≠ .done) :
      ∀ q, (s.goto p pc).pc q = .got 1 → Alone (s.goto p pc) q ∧ s.valid = true := by
    intro q hq
    by_cases hqp : q = p
    · subst hqp
      rw [goto_pc_self] at hq
      exact absurd hq hpc
    · rw [goto_pc_of_ne hqp] at hq
      exact absurd ((hi.got_one q hq).1 p (Ne.symm hqp)) h0
  have hlock (p : P) (pc : Pc) (hh : (s.pc p).Holds ↔ pc.Holds) :
      ∀ q, s.lock = some q ↔ ((s.goto p pc).pc q).Holds := by
    intro q
    by_cases hqp : q = p
    · subst hqp
      rw [goto_pc_self, hi.lock_iff]
      exact hh
    · rw [goto_pc_of_ne hqp]
      exact hi.lock_iff q
  have hunlock (p : P) (hh : (s.pc p).Holds) :
      ∀ q, (none : Option P) = some q ↔ ((s.goto p .dropping).pc q).Holds := by
    intro q
    by_cases hqp : q = p
    · subst hqp
      simp [Pc.Holds]
    · rw [goto_pc_of_ne hqp]
      have hpl := (hi.lock_iff p).mpr hh
      constructor
      · intro hcon
        cases hcon
      · intro hq
        have := (hi.lock_iff q).mpr hq
        rw [hpl] at this
        exact absurd (Option.some.inj this).symm hqp
  have hstep := step_cases h
  cases hstep with
  | acquire p hpc hl =>
    have h0 : s.pc p ≠ .done := by simp [hpc]
    refine ⟨hsame p _ h0 (by simp), ?_, hi.nlink_eq, hgot p _ (by simp) h0, ?_⟩
    · intro q
      by_cases hqp : q = p
      · subst hqp
        simp [Pc.Holds, State.goto]
      · rw [goto_pc_of_ne hqp]
        have hq := hi.lock_iff q
        rw [hl] at hq
        constructor
        · intro hcon
          exact absurd (Option.some.inj hcon).symm hqp
        · intro hh
          exact absurd (hq.mpr hh) (by simp)
    · have hv := hi.valid_of_before (Or.inl hpc)
      cases hi.phase with
      | live hv hf hd => exact .live hv hf hd
      | freed q hv' hf hd ha hq => exact absurd (hv'.symm.trans hv) (by simp)
  | read p hpc hv =>
    have h0 : s.pc p ≠ .done := by simp [hpc]
    refine ⟨hsame p _ h0 (by simp), hlock p _ (by simp [hpc, Pc.Holds]), hi.nlink_eq, ?_,
      phase_goto hi.phase h0 (by simp [hpc]) (Or.inl hv.1)⟩
    intro q hq
    refine ⟨?_, hv.1⟩
    by_cases hqp : q = p
    · subst hqp
      rw [goto_pc_self] at hq
      have hone : s.ref = 1 := by injection hq
      exact alone_goto (alone_of_ref_eq_one href hone h0) (fun hne => absurd rfl hne)
    · rw [goto_pc_of_ne hqp] at hq
      exact absurd ((hi.got_one q hq).1 p (Ne.symm hqp)) h0
  | skip p hpc hv =>
    exact absurd ⟨hi.valid_of_before (Or.inr (Or.inl hpc)), hi.nlink_eq⟩ hv
  | free p hpc =>
    have h0 : s.pc p ≠ .done := by simp [hpc]
    obtain ⟨ha, hv⟩ := hi.got_one p hpc
    refine ⟨hsame p _ h0 (by simp), hlock p _ (by simp [hpc, Pc.Holds]), hi.nlink_eq, ?_, ?_⟩
    · intro q hq
      by_cases hqp : q = p
      · subst hqp
        simp at hq
      · rw [goto_pc_of_ne hqp] at hq
        exact absurd ((hi.got_one q hq).1 p (Ne.symm hqp)) h0
    · have hf := hi.frees_of_valid hv
      refine .freed p rfl (by simp [State.freeInode, State.goto, hf]) ⟨rfl, rfl⟩ ?_ (by simp)
      exact alone_goto (s := s.freeInode) ha (fun hne => absurd rfl hne)
  | release p hpc =>
    have h0 : s.pc p ≠ .done := by
      rcases hpc with hpc | ⟨r, -, hpc⟩ <;> simp [hpc]
    have hh : (s.pc p).Holds := by
      rcases hpc with hpc | ⟨r, -, hpc⟩ <;> simp [hpc, Pc.Holds]
    refine ⟨hsame p _ h0 (by simp), hunlock p hh, hi.nlink_eq, hgot p _ (by simp) h0, ?_⟩
    have hphase : Phase type size (s.goto p .dropping) := by
      apply phase_goto hi.phase h0 (fun _ => Or.inl rfl)
      rcases hpc with hpc | ⟨r, -, hpc⟩
      · exact Or.inr (Or.inl hpc)
      · exact Or.inl (hi.valid_of_before (Or.inr (Or.inr ⟨r, hpc⟩)))
    cases hphase with
    | live hv hf hd => exact .live hv hf hd
    | freed q hv hf hd ha hq => exact .freed q hv hf hd ha hq
  | drop p hpc =>
    have h0 : s.pc p ≠ .done := by simp [hpc]
    refine ⟨?_, hlock p _ (by simp [hpc, Pc.Holds]), hi.nlink_eq, hgot p _ (by simp) h0, ?_⟩
    · have hcount : count Pc.Open (s.goto p .done).pc + 1 =
          count Pc.Open s.pc := count_update_leave h0 (fun hne => hne rfl)
      change s.ref - 1 = count Pc.Open (s.goto p .done).pc
      omega
    · have hphase : Phase type size (s.goto p .done) :=
        phase_goto hi.phase h0 (fun _ => Or.inr rfl) (Or.inr (Or.inr hpc))
      cases hphase with
      | live hv hf hd => exact .live hv hf hd
      | freed q hv hf hd ha hq => exact .freed q hv hf hd ha hq

theorem inv_exec (hrun : exec step (init P type size) ls = some s) : Inv type size s :=
  exec_invariant (Inv type size) (inv_init type size) (fun _ _ _ hi h => inv_step hi h) hrun

/-- Some call reads `ref` after every other call has done its decrement. -/
def LastReader (ls : List (P × Act)) : Prop :=
  ∃ before p after, ls = before ++ (p, .readRef) :: after ∧
    ∀ q, q ≠ p → (q, .dropRef) ∈ before

omit [DecidableEq P] [Fintype P] in
theorem lastReader_concat (ls : List (P × Act)) (p : P) (a : Act) :
    LastReader (ls ++ [(p, a)]) ↔
      LastReader ls ∨ (a = .readRef ∧ ∀ q, q ≠ p → (q, .dropRef) ∈ ls) := by
  constructor
  · rintro ⟨before, q, after, heq, hdrop⟩
    rcases List.eq_nil_or_concat after with rfl | ⟨after, l, rfl⟩
    · obtain ⟨rfl, hl⟩ := List.append_inj' heq rfl
      simp only [List.cons.injEq, Prod.mk.injEq, and_true] at hl
      obtain ⟨rfl, rfl⟩ := hl
      exact Or.inr ⟨rfl, hdrop⟩
    · rw [List.concat_eq_append, ← List.cons_append, ← List.append_assoc] at heq
      obtain ⟨rfl, -⟩ := List.append_inj' heq rfl
      exact Or.inl ⟨before, q, after, rfl, hdrop⟩
  · rintro (⟨before, q, after, rfl, hdrop⟩ | ⟨rfl, hdrop⟩)
    · exact ⟨before, q, after ++ [(p, a)], by simp, hdrop⟩
    · exact ⟨ls, p, [], rfl, hdrop⟩

/-- The inode has been freed, or some call has read 1 and is about to. -/
def Won (s : State P) : Prop := s.frees = 1 ∨ ∃ p, s.pc p = .got 1

omit [Fintype P] in
theorem won_goto (hpc : s.pc p ≠ .got 1) : Won (s.goto p pc) ↔ Won s ∨ pc = .got 1 := by
  constructor
  · rintro (hf | ⟨q, hq⟩)
    · exact Or.inl (Or.inl hf)
    · by_cases hqp : q = p
      · subst hqp
        rw [goto_pc_self] at hq
        exact Or.inr hq
      · rw [goto_pc_of_ne hqp] at hq
        exact Or.inl (Or.inr ⟨q, hq⟩)
  · rintro ((hf | ⟨q, hq⟩) | rfl)
    · exact Or.inl hf
    · have hqp : q ≠ p := by
        rintro rfl
        exact hpc hq
      exact Or.inr ⟨q, by rwa [goto_pc_of_ne hqp]⟩
    · exact Or.inr ⟨p, by simp⟩

theorem done_iff_dropRef_mem (hrun : exec step (init P type size) ls = some s) (q : P) :
    s.pc q = .done ↔ (q, .dropRef) ∈ ls := by
  apply exec_history (fun ls (s : State P) => s.pc q = .done ↔ (q, Act.dropRef) ∈ ls) ?_ ?_ hrun
  · simp [init]
  · intro tr s l s' ih h
    have hgoto (p : P) (pc : Pc) (a : Act) (hp : s.pc p ≠ .done)
        (hpc : pc = .done ↔ a = .dropRef) :
        (s.goto p pc).pc q = .done ↔ (q, Act.dropRef) ∈ tr ++ [(p, a)] := by
      by_cases hqp : q = p
      · subst hqp
        have hnot : (q, Act.dropRef) ∉ tr := fun hmem => hp (ih.mpr hmem)
        rw [goto_pc_self]
        simp [hnot, hpc, eq_comm]
      · rw [goto_pc_of_ne hqp, ih]
        simp [hqp]
    have hstep := step_cases h
    cases hstep with
    | acquire p hpc hl => exact hgoto p _ _ (by simp [hpc]) (by simp)
    | read p hpc hv => exact hgoto p _ _ (by simp [hpc]) (by simp)
    | skip p hpc hv => exact hgoto p _ _ (by simp [hpc]) (by simp)
    | free p hpc => exact hgoto p _ _ (by simp [hpc]) (by simp)
    | release p hpc =>
      exact hgoto p _ _ (by rcases hpc with hpc | ⟨r, -, hpc⟩ <;> simp [hpc]) (by simp)
    | drop p hpc => exact hgoto p _ _ (by simp [hpc]) (by simp)

/-- A call reads 1 exactly when the others have all dropped their references. -/
theorem won_iff_lastReader (hrun : exec step (init P type size) ls = some s) :
    Won s ↔ LastReader ls := by
  induction ls using List.reverseRecOn generalizing s with
  | nil =>
    cases hrun
    simp [Won, init, LastReader]
  | append_singleton ls l ih =>
    obtain ⟨m, hm, hlast⟩ := exec_concat_some.mp hrun
    have hi := inv_exec hm
    have hmove (p : P) (pc : Pc) (hp : m.pc p ≠ .got 1) (hpc : pc ≠ .got 1) :
        Won (m.goto p pc) ↔ Won m := by
      rw [won_goto hp]
      simp [hpc]
    have hstep := step_cases hlast
    cases hstep with
    | acquire p hpc hl =>
      rw [lastReader_concat, ← ih hm]
      refine (hmove p .locked (by simp [hpc]) (by simp)).trans ?_
      simp
    | read p hpc hv =>
      rw [lastReader_concat, ← ih hm, won_goto (by simp [hpc])]
      have hone : m.ref = 1 ↔ ∀ q, q ≠ p → (q, Act.dropRef) ∈ ls := by
        have hopen : m.pc p ≠ .done := by simp [hpc]
        constructor
        · intro h1 q hq
          exact (done_iff_dropRef_mem hm q).mp (alone_of_ref_eq_one hi.ref_eq h1 hopen q hq)
        · intro hall
          apply ref_eq_one_of_alone hi.ref_eq hopen
          intro q hq
          exact (done_iff_dropRef_mem hm q).mpr (hall q hq)
      simp [hone]
    | skip p hpc hv =>
      exact absurd ⟨hi.valid_of_before (Or.inr (Or.inl hpc)), hi.nlink_eq⟩ hv
    | free p hpc =>
      rw [lastReader_concat, ← ih hm]
      have hbefore : Won m := Or.inr ⟨p, hpc⟩
      have hafter : Won (m.freeInode.goto p .unlocking) := by
        have hf := hi.frees_of_valid (hi.got_one p hpc).2
        exact Or.inl (by simp [State.freeInode, State.goto, hf])
      simp [hbefore, hafter]
    | release p hpc =>
      rw [lastReader_concat, ← ih hm]
      have hne : m.pc p ≠ .got 1 := by
        rcases hpc with hpc | ⟨r, hr, hpc⟩ <;> simp_all
      refine (hmove p .dropping hne (by simp)).trans ?_
      simp
    | drop p hpc =>
      rw [lastReader_concat, ← ih hm]
      refine (hmove p .done (by simp [hpc]) (by simp)).trans ?_
      simp

/-- **When the last reference frees the inode.** Over every complete run of any
number of calls, the inode is truncated and marked free on disk exactly once,
and only while no other call holds a reference, if and only if some call reads
`ref` after every other call has decremented it. -/
theorem iput_frees_iff (type : Int) (size : Nat) (ls : List (P × Act)) (s : State P)
    (hrun : exec step (init P type size) ls = some s) (hdone : ∀ p, s.pc p = .done) :
    (s.frees = 1 ∧ s.diskType = 0 ∧ s.diskSize = 0 ∧
      AllSteps step (fun s l => l.2 = .free → ∀ q, q ≠ l.1 → s.pc q = .done)
        (init P type size) ls) ↔
      LastReader ls := by
  rw [← won_iff_lastReader hrun]
  constructor
  · rintro ⟨hf, -⟩
    exact Or.inl hf
  · intro hwon
    have hf : s.frees = 1 := by
      rcases hwon with hf | ⟨p, hp⟩
      · exact hf
      · exact absurd ((hdone p).symm.trans hp) (by simp)
    have hsafe : AllSteps step (fun s l => l.2 = .free → ∀ q, q ≠ l.1 → s.pc q = .done)
        (init P type size) ls := by
      apply allSteps_of_invariant (Inv type size) (inv_init type size) ?_ hrun
      intro m l m' hi h
      refine ⟨inv_step hi h, ?_⟩
      have hstep := step_cases h
      cases hstep with
      | free p hpc => exact fun _ => (hi.got_one p hpc).1
      | _ => simp
    cases (inv_exec hrun).phase with
    | live hv hf' hd => omega
    | freed p hv hf' hd ha hp => exact ⟨hf, hd.1, hd.2, hsafe⟩

/-- Three calls, each taking the lock before the one ahead of it has decremented
`ref`; the last of them still reads 1. -/
def staggeredPuts : List (Fin 3 × Act) :=
  [(0, .acquiresleep), (0, .readRef), (0, .releasesleep), (1, .acquiresleep), (0, .dropRef),
   (1, .readRef), (1, .releasesleep), (2, .acquiresleep), (1, .dropRef), (2, .readRef),
   (2, .free), (2, .releasesleep), (2, .dropRef)]

theorem iput_frees_iff_staggered :
    ∃ s, exec step (init (Fin 3) 2 512) staggeredPuts = some s ∧ s.frees = 1 ∧
      s.diskType = 0 ∧ s.diskSize = 0 := by
  obtain ⟨s, hs, hdone⟩ : ∃ s, exec step (init (Fin 3) 2 512) staggeredPuts = some s ∧
      ∀ p, s.pc p = .done := by
    decide
  have hlast : LastReader staggeredPuts :=
    ⟨staggeredPuts.take 9, 2, staggeredPuts.drop 10, rfl, by decide⟩
  obtain ⟨hf, ht, hsize, -⟩ := (iput_frees_iff 2 512 staggeredPuts s hs hdone).mpr hlast
  exact ⟨s, hs, hf, ht, hsize⟩

/-- Both calls read 2 before either decrements, so neither frees the inode. -/
def overlappingPuts : List (Fin 2 × Act) :=
  [(0, .acquiresleep), (0, .readRef), (0, .releasesleep),
   (1, .acquiresleep), (1, .readRef), (1, .releasesleep), (0, .dropRef), (1, .dropRef)]

theorem overlapping_puts_leak :
    ∃ s, exec step (init (Fin 2) 2 512) overlappingPuts = some s ∧
      (∀ p, s.pc p = .done) ∧ s.ref = 0 ∧ s.frees = 0 ∧ s.diskType = 2 := by
  decide

end Xv6.IputRace
