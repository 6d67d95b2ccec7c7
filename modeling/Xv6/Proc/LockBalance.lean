import Xv6.Proc.LockControl

/-!
Along every run the locks of a CPU are the one of the point where its process is
and the ones that were held before the process left user space.
-/

namespace Xv6.Ptable.Locks

open Prog Container Container.Memory Transition

section Locks

variable {C : Type} {s s' : Machine C} {c d : C} {p q : Slot} {next : Pc} {l : Lock}

/-- The locks of a CPU whose process is in the code. -/
structure Owns (s : Machine C) (c : C) (p : Slot) : Prop where
  call : ¬ (s.pc p).Out → ∀ l, s.lock l = some c ↔ s.entry p l = true ∨ (s.pc p).held = some l
  apart : ¬ (s.pc p).Out → ∀ l, (s.pc p).held = some l → s.entry p l = false
  user : s.pc p = .user → s.lock .ctable ≠ some c

theorem owns_of_stopped (hout : (s.pc p).Out) (huser : s.pc p ≠ .user) : Owns s c p :=
  ⟨fun h => absurd hout h, fun h => absurd hout h, fun h => absurd h huser⟩

/-- A process that is back in user space holds at most what it had before. -/
theorem owns_of_holds (hentry : s.entry p .ctable = false)
    (h : ∀ l, s.lock l = some c ↔ s.entry p l = true ∨ (s.pc p).held = some l)
    (hapart : ∀ l, (s.pc p).held = some l → s.entry p l = false) : Owns s c p := by
  refine ⟨fun _ => h, fun _ => hapart, ?_⟩
  intro huser hl
  rcases (h .ctable).mp hl with hl | hl
  · rw [hentry] at hl
    cases hl
  · rw [huser] at hl
    cases hl

variable [DecidableEq C]

/-- How many of the locks the CPU holds. -/
def Machine.count (s : Machine C) (c : C) : Nat :=
  (if s.lock .ptable = some c then 1 else 0) + (if s.lock .ctable = some c then 1 else 0)

theorem count_congr (h : ∀ l, s'.lock l = some c ↔ s.lock l = some c) : s'.count c = s.count c := by
  simp only [Machine.count, h]

theorem count_take (hl : s.lock l = none) : (s.take c l).count c = s.count c + 1 := by
  unfold Machine.count Machine.take
  cases l
  · simp [Prog.set, hl]
    omega
  · simp [Prog.set, hl]

theorem count_give (hl : s.lock l = some c) : (s.give c l).count c = s.count c - 1 := by
  unfold Machine.count Machine.give
  cases l
  · simp [Prog.set, hl]
  · simp [Prog.set, hl]

theorem take_lock_of_ne (hd : d ≠ c) (hl : s.lock l = none) (l' : Lock) :
    (s.take c l).lock l' = some d ↔ s.lock l' = some d := by
  change set s.lock l (some c) l' = some d ↔ _
  by_cases h : l' = l
  · subst h
    simp [hl, hd.symm]
  · rw [set_of_ne _ _ h]

theorem give_lock_of_ne (hd : d ≠ c) (hl : s.lock l = some c) (l' : Lock) :
    (s.give c l).lock l' = some d ↔ s.lock l' = some d := by
  change set s.lock l none l' = some d ↔ _
  by_cases h : l' = l
  · subst h
    simp [hl, hd.symm]
  · rw [set_of_ne _ _ h]

structure Held (s : Machine C) : Prop where
  ncli : ∀ c, s.ncli c = s.count c
  entry : ∀ p, s.entry p .ctable = false
  idle : ∀ c, s.cur c = none → (∀ e, s.sched c ≠ .panic e) →
    ∀ l, s.lock l = some c ↔ (s.sched c).held = some l
  owns : ∀ c p, s.cur c = some p → Owns s c p

/-- A step of CPU `c` leaves the locks of the others alone. -/
theorem Held.of_cpu (h : Held s) (c : C) (hcur : ∀ d, d ≠ c → s'.cur d = s.cur d)
    (hsched : ∀ d, d ≠ c → s'.sched d = s.sched d)
    (hlock : ∀ d, d ≠ c → ∀ l, s'.lock l = some d ↔ s.lock l = some d)
    (hncli : ∀ d, d ≠ c → s'.ncli d = s.ncli d) (hcount : s'.ncli c = s'.count c)
    (hsame : ∀ d q, d ≠ c → s.cur d = some q → s'.pc q = s.pc q ∧ s'.entry q = s.entry q)
    (hentry : ∀ p, s'.entry p .ctable = false)
    (hidle : s'.cur c = none → (∀ e, s'.sched c ≠ .panic e) →
      ∀ l, s'.lock l = some c ↔ (s'.sched c).held = some l)
    (howns : ∀ p, s'.cur c = some p → Owns s' c p) : Held s' := by
  refine ⟨?_, hentry, ?_, ?_⟩
  · intro d
    by_cases hd : d = c
    · rw [hd]
      exact hcount
    · rw [hncli d hd, count_congr (hlock d hd)]
      exact h.ncli d
  · intro d hnone hpanic l
    by_cases hd : d = c
    · subst hd
      exact hidle hnone hpanic l
    · rw [hcur d hd] at hnone
      rw [hsched d hd] at hpanic ⊢
      rw [hlock d hd]
      exact h.idle d hnone hpanic l
  · intro d q hq
    by_cases hd : d = c
    · subst hd
      exact howns q hq
    · rw [hcur d hd] at hq
      obtain ⟨hpc, hent⟩ := hsame d q hd hq
      have ho := h.owns d q hq
      refine ⟨?_, ?_, ?_⟩
      · rw [hpc, hent]
        intro hout l
        rw [hlock d hd]
        exact ho.call hout l
      · rw [hpc, hent]
        exact ho.apart
      · intro huser hl
        exact ho.user (hpc ▸ huser) ((hlock d hd .ctable).mp hl)

structure Inv (s : Machine C) : Prop extends Control s, Held s

theorem Inv.lock_of_held (h : Inv s) (hp : s.cur c = some p) (hheld : (s.pc p).held = some l) :
    s.lock l = some c :=
  ((h.owns c p hp).call (not_out_of_held hheld) l).mpr (Or.inr hheld)

/-- Whoever holds `ptable.lock` finds the processes of the other CPUs running. -/
theorem Inv.running_of_locked (h : Inv s) (hl : s.lock .ptable = some c) (hq : s.cur d = some q)
    (hd : d ≠ c) : s.state q = .running := by
  apply h.state_of_not_leaving hq
  intro hleave
  have := h.lock_of_held hq hleave.held
  rw [hl] at this
  exact hd (Option.some.inj this).symm

/-- The process on CPU `c` moves, and the locks of the other CPUs stay. -/
theorem Inv.goto_locks (h : Inv s) (hp : s.cur c = some p) (hcur : s'.cur = s.cur)
    (hsched : s'.sched = s.sched) (hlock : ∀ d, d ≠ c → ∀ l, s'.lock l = some d ↔ s.lock l = some d)
    (hncli : ∀ d, d ≠ c → s'.ncli d = s.ncli d) (hcount : s'.ncli c = s'.count c)
    (hsame : ∀ q, q ≠ p → s'.pc q = s.pc q ∧ s'.entry q = s.entry q)
    (hentry : s'.entry p .ctable = false) (howns : Owns s' c p) : Held s' := by
  refine h.toHeld.of_cpu c (fun _ _ => by rw [hcur]) (fun _ _ => by rw [hsched]) hlock hncli hcount
    ?_ ?_ ?_ ?_
  · intro d q hd hq
    apply hsame
    rintro rfl
    exact hd (h.once d c q hq hp)
  · intro q
    by_cases hq : q = p
    · rw [hq]
      exact hentry
    · rw [(hsame q hq).2]
      exact h.entry q
  · intro hnone
    rw [hcur, hp] at hnone
    cases hnone
  · intro q hq
    rw [hcur, hp] at hq
    obtain rfl := Option.some.inj hq
    exact howns

theorem set_pc_of_ne {pc : Slot → Pc} (hq : q ≠ p) : set pc p next q = pc q := set_of_ne _ _ hq

/-- The running process goes to `next`, with no change of state. -/
theorem Inv.move (h : Inv s) (hp : s.cur c = some p) (hcur : s'.cur = s.cur)
    (hsched : s'.sched = s.sched) (hdata : s'.data = s.data) (hpc : s'.pc = set s.pc p next)
    (hlock : ∀ d, d ≠ c → ∀ l, s'.lock l = some d ↔ s.lock l = some d)
    (hncli : ∀ d, d ≠ c → s'.ncli d = s.ncli d) (hcount : s'.ncli c = s'.count c)
    (hentry : ∀ q, q ≠ p → s'.entry q = s.entry q) (hct : s'.entry p .ctable = false)
    (hrun : s.state p = .running) (hwf : next.Wf)
    (hchild : next.child = (s.pc p).child ∨ next.child = none)
    (howns : s'.pc p = next → Owns s' c p) : Inv s' := by
  have hself : s'.pc p = next := by rw [hpc, set_self]
  have hsame (q : Slot) (hq : q ≠ p) : s'.pc q = s.pc q ∧ s'.entry q = s.entry q := by
    rw [hpc, set_of_ne _ _ hq]
    exact ⟨rfl, hentry q hq⟩
  have hstate : s'.state = s.state := by
    funext q
    unfold Machine.state
    rw [hdata]
  exact ⟨h.toControl.move hp hcur hsched hstate hsame (hself ▸ hwf) (Or.inl hrun) (hself ▸ hchild),
    h.goto_locks hp hcur hsched hlock hncli hcount hsame hct (howns hself)⟩

section

variable (h : Inv s) (hp : s.cur c = some p)
include h hp

/-- `panic` in a process that has not changed its state. -/
theorem Inv.panic (hrun : s.state p = .running) (e : Panic) : Inv (s.goto p (.panic e)) :=
  h.move hp rfl rfl rfl rfl (fun _ _ _ => Iff.rfl) (fun _ _ => rfl) (h.ncli c) (fun _ _ => rfl)
    (h.entry p) hrun trivial (Or.inr rfl)
    fun hpc => owns_of_stopped (by rw [hpc]; trivial) (by rw [hpc]; simp)

theorem Inv.acquire (ha : Acquires (s.pc p) next l) (hl : s.lock l = none) :
    Inv ((s.take c l).goto p next) := by
  have hrun := h.state_of_not_leaving hp (not_leaving_of_held ha.before)
  have hcall := (h.owns c p hp).call ha.within
  refine h.move hp rfl rfl rfl rfl (fun d hd => take_lock_of_ne hd hl)
    (fun d hd => set_of_ne _ _ hd) ?_ (fun _ _ => rfl) (h.entry p) hrun (ha.wf (h.wf p))
    (Or.inl ha.child) fun hpc => owns_of_holds (h.entry p) ?_ ?_
  · change set s.ncli c (s.ncli c + 1) c = (s.take c l).count c
    rw [set_self, count_take hl, h.ncli]
  · intro l'
    rw [hpc, ha.after]
    change set s.lock l (some c) l' = some c ↔ _
    by_cases hll : l' = l
    · subst hll
      simp
    · rw [set_of_ne _ _ hll, hcall l', ha.before]
      simp [Ne.symm hll]
      rfl
  · intro l' hheld
    rw [hpc, ha.after] at hheld
    obtain rfl := Option.some.inj hheld
    change s.entry p l = false
    by_contra hne
    have := (hcall l).mpr (Or.inl (by simpa using hne))
    rw [hl] at this
    cases this

theorem Inv.release (hr : Releases (s.pc p) next l) (hrun : s.state p = .running)
    (hl : s.lock l = some c) : Inv ((s.give c l).goto p next) := by
  have hcall := (h.owns c p hp).call (not_out_of_held hr.before)
  have hapart := (h.owns c p hp).apart (not_out_of_held hr.before)
  refine h.move hp rfl rfl rfl rfl (fun d hd => give_lock_of_ne hd hl)
    (fun d hd => set_of_ne _ _ hd) ?_ (fun _ _ => rfl) (h.entry p) hrun hr.wf (Or.inl hr.child)
    fun hpc => owns_of_holds (h.entry p) ?_ ?_
  · change set s.ncli c (s.ncli c - 1) c = (s.give c l).count c
    rw [set_self, count_give hl, h.ncli]
  · intro l'
    rw [hpc, hr.after]
    change set s.lock l none l' = some c ↔ s.entry p l' = true ∨ _
    by_cases hll : l' = l
    · subst hll
      simp [hapart l' hr.before]
    · rw [set_of_ne _ _ hll, hcall l', hr.before]
      simp [Ne.symm hll]
  · intro l' hheld
    rw [hpc, hr.after] at hheld
    cases hheld

theorem Inv.access {d' : Data} (ha : Accesses p (s.pc p) next s.data.proc d'.proc) :
    Inv ({ s with data := d' }.goto p next) := by
  have hpc : ({ s with data := d' }.goto p next).pc p = next := set_self _ _ _
  have ho := h.owns c p hp
  constructor
  · refine h.toControl.access hp ?_ ha rfl rfl rfl hpc fun q hq => set_pc_of_ne hq
    intro hheld d q hd
    by_cases hdc : d = c
    · obtain rfl := Option.some.inj (hp.symm.trans (hdc ▸ hd))
      exact h.state_of_not_leaving hp ha.before
    · exact h.running_of_locked (h.lock_of_held hp hheld) hd hdc
  · refine h.goto_locks hp rfl rfl (fun _ _ _ => Iff.rfl) (fun _ _ => rfl) (h.ncli c)
      (fun q hq => ⟨set_pc_of_ne hq, rfl⟩) (h.entry p) ?_
    rcases ha.after with hout | hheld
    · apply owns_of_stopped
      · rw [hpc]
        exact hout
      · rw [hpc]
        exact ha.kernel
    · refine owns_of_holds (h.entry p) ?_ ?_
      · rw [hpc, hheld]
        exact ho.call ha.within
      · rw [hpc, hheld]
        exact ho.apart ha.within

theorem Inv.context {np : Slot} (hpc : s.pc p = .allocContext np) : Inv { s with
      pc := set (set s.pc np .forkret) p (.forkCopy np)
      entry := set s.entry np fun _ => false } := by
  have hchild : (s.pc p).child = some (np, false) := by
    rw [hpc]
    rfl
  have hne := h.child_ne hp hchild
  have hoff := (h.child p np false hchild).2.1
  have hsame (q : Slot) (hqp : q ≠ p) (hq : q ≠ np) :
      set (set s.pc np .forkret) p (.forkCopy np) q = s.pc q ∧
      set s.entry np (fun _ => false) q = s.entry q :=
    ⟨(set_of_ne _ _ hqp).trans (set_of_ne _ _ hq), set_of_ne _ _ hq⟩
  have hentry (q : Slot) : set s.entry np (fun _ => false) q .ctable = false := by
    by_cases hq : q = np
    · rw [hq, set_self]
    · rw [set_of_ne _ _ hq]
      exact h.entry q
  constructor
  · refine h.toControl.context hp hpc rfl rfl rfl (set_self _ _ _) ?_ ?_ hsame
    · exact (set_of_ne _ _ hne).trans (set_self _ _ _)
    · intro l
      change set s.entry np _ np l = false
      rw [set_self]
  · refine h.toHeld.of_cpu c (fun _ _ => rfl) (fun _ _ => rfl) (fun _ _ _ => Iff.rfl)
      (fun _ _ => rfl) (h.ncli c) ?_ hentry ?_ ?_
    · intro d q hd hq
      apply hsame
      · rintro rfl
        exact hd (h.once d c q hq hp)
      · rintro rfl
        exact hoff d hq
    · intro hnone
      change s.cur c = none at hnone
      rw [hp] at hnone
      cases hnone
    · intro q hq
      obtain rfl := Option.some.inj (hp.symm.trans hq)
      have hcall := (h.owns c p hp).call (by rw [hpc]; exact id)
      rw [hpc] at hcall
      refine owns_of_holds (hentry p) ?_ ?_
      · intro l
        change _ ↔ set s.entry np _ p l = true ∨ (set (set s.pc np .forkret) p _ p).held = some l
        rw [set_self, set_of_ne _ _ (Ne.symm hne)]
        exact hcall l
      · intro l
        change (set (set s.pc np .forkret) p _ p).held = some l → _
        rw [set_self]
        intro hheld
        cases hheld

/-- At `sched` the CPU holds `ptable.lock` and no other. -/
theorem Inv.leaving (hl : (s.pc p).Leaving) :
    (∀ l, s.entry p l = false) ∧ (∀ l, s.lock l = some c ↔ l = .ptable) ∧ s.ncli c = 1 := by
  have hentry (l : Lock) : s.entry p l = false := by
    cases l with
    | ptable => exact (h.owns c p hp).apart hl.not_out .ptable hl.held
    | ctable => exact h.entry p
  have hlock (l : Lock) : s.lock l = some c ↔ l = .ptable := by
    rw [(h.owns c p hp).call hl.not_out l, hentry l, hl.held]
    simp [eq_comm]
  refine ⟨hentry, hlock, ?_⟩
  rw [h.ncli, Machine.count, if_pos ((hlock .ptable).mpr rfl), if_neg]
  intro hc
  cases (hlock .ctable).mp hc

theorem Inv.sched (hl : Leaves (s.pc p) next) :
    Inv { (s.goto p next).setSched c (s.sched c).back with cur := set s.cur c none } := by
  obtain ⟨hentry, hlock, -⟩ := h.leaving hp hl.leaving
  obtain ⟨con, i, hrun⟩ := h.busy c p hp
  have hcur (d : C) (hd : d ≠ c) : set s.cur c none d = s.cur d := set_of_ne _ _ hd
  have hsched (d : C) (hd : d ≠ c) : set s.sched c (s.sched c).back d = s.sched d :=
    set_of_ne _ _ hd
  constructor
  · exact h.toControl.leave hp hl hentry hcur (set_self _ _ _) hsched rfl (set_self _ _ _)
      (fun q hq => set_pc_of_ne hq) rfl
  · refine h.toHeld.of_cpu c hcur hsched (fun _ _ _ => Iff.rfl) (fun _ _ => rfl) (h.ncli c) ?_
      h.entry ?_ ?_
    · intro d q hd hq
      refine ⟨set_pc_of_ne ?_, rfl⟩
      rintro rfl
      exact hd (h.once d c q hq hp)
    · intro _ _ l
      change s.lock l = some c ↔ (set s.sched c (s.sched c).back c).held = some l
      rw [set_self, hrun, hlock l]
      simp [SchedPc.back, SchedPc.held, eq_comm]
    · intro q hq
      change set s.cur c none c = some q at hq
      rw [set_self] at hq
      cases hq

/-- The process is back in user space. -/
theorem Inv.ret {f : Sys} {r : Int} (hpc : s.pc p = .ret f r) : Inv (s.goto p .user) := by
  have hnot : ¬ (s.pc p).Leaving := by
    rw [hpc]
    exact id
  refine h.move hp rfl rfl rfl rfl (fun _ _ _ => Iff.rfl) (fun _ _ => rfl) (h.ncli c)
    (fun _ _ => rfl)
    (h.entry p) (h.state_of_not_leaving hp hnot) trivial (Or.inr rfl) fun hpc' => ?_
  have hout : ((s.goto p .user).pc p).Out := by
    rw [hpc']
    trivial
  refine ⟨fun hn => absurd hout hn, fun hn => absurd hout hn, ?_⟩
  intro _ hl
  change s.lock .ctable = some c at hl
  rcases ((h.owns c p hp).call (by rw [hpc]; exact id) .ctable).mp hl with he | he
  · rw [h.entry] at he
    cases he
  · rw [hpc] at he
    cases f <;> cases he

end

/-- What starts in a process that was at `pc`. -/
structure Starts (pc next : Pc) : Prop where
  held : next.held = none
  child : next.child = pc.child ∨ next.child = none
  wf : next.Wf

theorem Call.starts (k : Call) : Starts .user k.start := by
  cases k with
  | kill pid => cases pc : pid <;> exact ⟨rfl, Or.inr rfl, trivial⟩
  | _ => exact ⟨rfl, Or.inr rfl, trivial⟩

theorem Handler.starts (k : Handler) {pc : Pc} (hheld : pc.held = none) (hwf : pc.Wf) :
    Starts pc (k.start pc) := by
  cases k <;> exact ⟨rfl, Or.inl rfl, hheld, hwf⟩

/-- A system call or an interrupt takes the process out of user space. -/
theorem Inv.leaveUser (h : Inv s) (hp : s.cur c = some p) (hpc : s.pc p = .user)
    (hs : Starts .user next) : Inv (s.leaveUser c p next) := by
  have hent : (s.leaveUser c p next).entry p = s.held c := set_self _ _ _
  have hnot : ¬ (s.pc p).Leaving := by
    rw [hpc]
    exact id
  have hct : (s.leaveUser c p next).entry p .ctable = false := by
    rw [hent]
    simpa [Machine.held] using (h.owns c p hp).user hpc
  refine h.move hp rfl rfl rfl rfl (fun _ _ _ => Iff.rfl) (fun _ _ => rfl) (h.ncli c)
    (fun q hq => set_of_ne _ _ hq) hct (h.state_of_not_leaving hp hnot) hs.wf (hpc ▸ hs.child)
    fun hpc' => owns_of_holds hct ?_ ?_
  · intro l
    rw [hpc', hs.held, hent]
    simp [Machine.held, Machine.leaveUser, Machine.goto]
  · intro l hheld
    rw [hpc', hs.held] at hheld
    cases hheld

theorem Inv.interrupt {k : Handler} (h : Inv s) (hp : s.cur c = some p)
    (hs : interrupt s c p k = some s') : Inv s' := by
  unfold Locks.interrupt at hs
  split_ifs at hs with huser hmask
  · cases hs
    exact h.leaveUser hp huser (k.starts rfl trivial)
  · cases hs
    obtain ⟨hncli, hmask⟩ := hmask
    have hout : ¬ (s.pc p).Out := by
      intro hout
      exact hmask (hout.masked huser)
    have hnone (l : Lock) : s.lock l ≠ some c := by
      intro hl
      rw [h.ncli, Machine.count] at hncli
      cases l <;> simp [hl] at hncli
    have hheld : (s.pc p).held = none := by
      cases hheld : (s.pc p).held with
      | none => rfl
      | some l => exact absurd (h.lock_of_held hp hheld) (hnone l)
    have hst := k.starts hheld (h.wf p)
    have hrun := h.state_of_not_leaving hp (not_leaving_of_held hheld)
    refine h.move hp rfl rfl rfl rfl (fun _ _ _ => Iff.rfl) (fun _ _ => rfl) (h.ncli c)
      (fun _ _ => rfl) (h.entry p) hrun hst.wf hst.child fun hpc' => owns_of_holds (h.entry p) ?_ ?_
    · intro l
      rw [hpc', hst.held, ← hheld]
      exact (h.owns c p hp).call hout l
    · intro l hl
      rw [hpc', hst.held] at hl
      cases hl

theorem Inv.run {ok : Bool} (h : Inv s) (hp : s.cur c = some p) (hs : run s c p ok = some s') :
    Inv s' := by
  unfold Locks.run at hs
  split at hs
  · next l next hcode =>
      have ha := acquires hcode
      split_ifs at hs with hown hfree
      · cases hs
        exact h.panic hp (h.state_of_not_leaving hp (not_leaving_of_held ha.before)) _
      · cases hs
        exact h.acquire hp ha hfree
  · next l next hcode =>
      have hr := releases (h.wf p) hcode
      have hl := h.lock_of_held hp hr.before
      rw [if_pos hl] at hs
      cases hs
      refine h.release hp hr (h.state_of_not_leaving hp ?_) hl
      intro hleave
      exact absurd hcode (by revert hleave; cases s.pc p <;> simp [Pc.Leaving, code])
  · next f hcode =>
      cases hs
      exact h.access hp (accesses hcode ok)
  · next np next hcode =>
      obtain ⟨hpc, rfl⟩ := context_eq hcode
      cases hs
      exact h.context hp hpc
  · next next hcode =>
      have hl := leaves hcode
      obtain ⟨-, hlock, hncli⟩ := h.leaving hp hl.leaving
      rw [if_neg (by simp [(hlock .ptable).mpr rfl]), if_neg (by simp [hncli])] at hs
      split_ifs at hs with hrun
      · cases hs
        exact h.panic hp hrun _
      · cases hs
        exact h.sched hp hl
  · split at hs
    · next f r hpc =>
        cases hs
        exact h.ret hp hpc
    · cases hs

/-- The scheduler of CPU `c` is at a point where it has not stopped. -/
def Machine.Idle (s : Machine C) (c : C) : Prop :=
  s.cur c = none ∧ ∀ e, s.sched c ≠ .panic e

/-- The scheduler of CPU `c` moves. -/
theorem Inv.idle_step (h : Inv s) (hc : s.cur c = none) (hcur : s'.cur = s.cur)
    (hsched : ∀ d, d ≠ c → s'.sched d = s.sched d) (hpc : s'.pc = s.pc)
    (hentry : s'.entry = s.entry) (hon : ∀ d q, s.cur d = some q → s'.state q = s.state q)
    (hrise : ∀ q, Rises s.data.proc s'.data.proc q)
    (hlock : ∀ d, d ≠ c → ∀ l, s'.lock l = some d ↔ s.lock l = some d)
    (hncli : ∀ d, d ≠ c → s'.ncli d = s.ncli d) (hcount : s'.ncli c = s'.count c)
    (hidle : ∀ l, s'.lock l = some c ↔ (s'.sched c).held = some l) : Inv s' := by
  constructor
  · exact h.toControl.idle hc hcur hsched hpc hentry hon hrise
  · refine h.toHeld.of_cpu c ?_ hsched hlock hncli hcount ?_ ?_ (fun _ _ => hidle) ?_
    · intro d _
      rw [hcur]
    · intro d q _ _
      rw [hpc, hentry]
      exact ⟨rfl, rfl⟩
    · rw [hentry]
      exact h.entry
    · intro q hq
      rw [hcur, hc] at hq
      cases hq

variable {pc : SchedPc}

section

variable (h : Inv s) (hc : s.Idle c)
include h hc

theorem Inv.schedAcquire (hheld : (s.sched c).held = none) (hpc : pc.held = some .ptable)
    (hl : s.lock .ptable = none) : Inv ((s.take c .ptable).setSched c pc) := by
  refine h.idle_step hc.1 rfl (fun d hd => set_of_ne _ _ hd) rfl rfl (fun _ _ _ => rfl)
    (fun _ => Or.inl rfl) (fun d hd => take_lock_of_ne hd hl) (fun d hd => set_of_ne _ _ hd) ?_ ?_
  · change set s.ncli c (s.ncli c + 1) c = (s.take c .ptable).count c
    rw [set_self, count_take hl, h.ncli]
  · intro l
    change set s.lock .ptable (some c) l = some c ↔ (set s.sched c pc c).held = some l
    rw [set_self, hpc]
    cases l with
    | ptable => simp
    | ctable =>
      rw [set_of_ne _ _ (by simp), h.idle c hc.1 hc.2, hheld]
      simp

theorem Inv.schedRelease (hheld : (s.sched c).held = some .ptable) (hpc : pc.held = none)
    (hl : s.lock .ptable = some c) : Inv ((s.give c .ptable).setSched c pc) := by
  refine h.idle_step hc.1 rfl (fun d hd => set_of_ne _ _ hd) rfl rfl (fun _ _ _ => rfl)
    (fun _ => Or.inl rfl) (fun d hd => give_lock_of_ne hd hl) (fun d hd => set_of_ne _ _ hd) ?_ ?_
  · change set s.ncli c (s.ncli c - 1) c = (s.give c .ptable).count c
    rw [set_self, count_give hl, h.ncli]
  · intro l
    change set s.lock .ptable none l = some c ↔ (set s.sched c pc c).held = some l
    rw [set_self, hpc]
    cases l with
    | ptable => simp
    | ctable =>
      rw [set_of_ne _ _ (by simp), h.idle c hc.1 hc.2, hheld]
      simp

theorem Inv.schedMove {d' : Data} (hpc : pc.held = (s.sched c).held)
    (hon : ∀ d q, s.cur d = some q → (d'.proc q).state = s.state q)
    (hrise : ∀ q, Rises s.data.proc d'.proc q) : Inv { s.setSched c pc with data := d' } := by
  refine h.idle_step hc.1 rfl (fun d hd => set_of_ne _ _ hd) rfl rfl hon hrise
    (fun _ _ _ => Iff.rfl) (fun _ _ => rfl) (h.ncli c) ?_
  intro l
  change s.lock l = some c ↔ (set s.sched c pc c).held = some l
  rw [set_self, hpc]
  exact h.idle c hc.1 hc.2 l

/-- The process that the scheduler switches to finds `ptable.lock` held by its
CPU, as `sched` left it. -/
theorem Inv.dispatch {con : Id} {i : Nat} (hheld : (s.sched c).held = some .ptable)
    (hrun : s.state q = .runnable) :
    Inv { s.setSched c (.run con i) with
      data := s.data.setProc q ((s.data.proc q).setState .running)
      cur := set s.cur c (some q) } := by
  have hlock (l : Lock) : s.lock l = some c ↔ l = .ptable := by
    rw [h.idle c hc.1 hc.2 l, hheld]
    simp [eq_comm]
  have hoff : s.Off q := by
    intro d hd
    have hdc : d ≠ c := by
      rintro rfl
      rw [hc.1] at hd
      cases hd
    have := h.running_of_locked ((hlock .ptable).mpr rfl) hd hdc
    rw [hrun] at this
    cases this
  obtain ⟨hpc, hentry⟩ := h.ready q hoff (Or.inl hrun)
  have hcur (d : C) (hd : d ≠ c) : set s.cur c (some q) d = s.cur d := set_of_ne _ _ hd
  have hsched (d : C) (hd : d ≠ c) : set s.sched c (.run con i) d = s.sched d := set_of_ne _ _ hd
  constructor
  · refine h.toControl.dispatch hoff hrun hcur (set_self _ _ _) hsched ⟨con, i, set_self _ _ _⟩ ?_
      (fun r hr => state_setProc_of_ne hr) hc.1 rfl rfl
    change ((s.data.setProc q _).proc q).state = _
    rw [setProc_self]
    rfl
  · refine h.toHeld.of_cpu c hcur hsched (fun _ _ _ => Iff.rfl) (fun _ _ => rfl) (h.ncli c)
      (fun _ _ _ _ => ⟨rfl, rfl⟩) h.entry ?_ ?_
    · intro hnone
      change set s.cur c (some q) c = none at hnone
      rw [set_self] at hnone
      cases hnone
    · intro r hr
      change set s.cur c (some q) c = some r at hr
      rw [set_self] at hr
      obtain rfl := Option.some.inj hr
      refine owns_of_holds (h.entry q) ?_ ?_
      · intro l
        change s.lock l = some c ↔ s.entry q l = true ∨ (s.pc q).held = some l
        rw [hlock l, hentry l, hpc]
        simp [eq_comm]
      · intro l _
        exact hentry l

end

theorem Inv.schedule (h : Inv s) (hc : s.cur c = none) (hs : schedule s c = some s') :
    Inv s' := by
  unfold Locks.schedule at hs
  have hlock (hpanic : ∀ e, s.sched c ≠ .panic e) (l : Lock) := h.idle c hc hpanic l
  cases hpc : s.sched c with
  | look con =>
    rw [hpc] at hs
    cases hs
    refine h.schedMove ⟨hc, by simp [hpc]⟩ ?_ (fun _ _ _ => rfl) fun _ => Or.inl rfl
    rw [hpc]
    split <;> rfl
  | enter con =>
    rw [hpc] at hs hlock
    dsimp only at hs
    rw [if_neg (by rw [hlock (by simp)]; simp [SchedPc.held])] at hs
    split_ifs at hs with hfree
    cases hs
    exact h.schedAcquire ⟨hc, by simp [hpc]⟩ (by rw [hpc]; rfl) rfl hfree
  | scan con i =>
    rw [hpc] at hs
    dsimp only at hs
    split at hs
    · cases hs
      refine h.schedMove ⟨hc, by simp [hpc]⟩ ?_ (fun _ _ _ => rfl) fun _ => Or.inl rfl
      rw [hpc]
      rfl
    · next q hq =>
        split_ifs at hs with hrun
        · cases hs
          exact h.dispatch ⟨hc, by simp [hpc]⟩ (by rw [hpc]; rfl) hrun.2
        · cases hs
          refine h.schedMove ⟨hc, by simp [hpc]⟩ ?_ (fun _ _ _ => rfl) fun _ => Or.inl rfl
          rw [hpc]
          rfl
  | leave con =>
    rw [hpc] at hs hlock
    have hl := (hlock (by simp) .ptable).mpr rfl
    dsimp only at hs
    rw [if_pos hl] at hs
    cases hs
    exact h.schedRelease ⟨hc, by simp [hpc]⟩ (by rw [hpc]; rfl) rfl hl
  | wake chan con entering =>
    rw [hpc] at hs hlock
    dsimp only at hs
    rw [if_neg (by rw [hlock (by simp)]; simp [SchedPc.held])] at hs
    split_ifs at hs with hfree
    cases hs
    exact h.schedAcquire ⟨hc, by simp [hpc]⟩ (by rw [hpc]; rfl) rfl hfree
  | wakeScan chan con entering =>
    rw [hpc] at hs hlock
    have hl := (hlock (by simp) .ptable).mpr rfl
    cases hs
    have hwoken := (wakeup1_woken (some chan) s.data.proc).state
    refine h.schedMove ⟨hc, by simp [hpc]⟩ (by rw [hpc]; rfl) ?_ hwoken
    intro d q hd
    have hdc : d ≠ c := by
      rintro rfl
      rw [hc] at hd
      cases hd
    have hrun := h.running_of_locked hl hd hdc
    refine (hwoken q).resolve_right fun hrise => ?_
    rw [show (s.data.proc q).state = .running from hrun] at hrise
    cases hrise.1
  | wakeEnd con entering =>
    rw [hpc] at hs hlock
    have hl := (hlock (by simp) .ptable).mpr rfl
    dsimp only at hs
    rw [if_pos hl] at hs
    cases hs
    refine h.schedRelease ⟨hc, by simp [hpc]⟩ (by rw [hpc]; rfl) ?_ hl
    split <;> rfl
  | run con i =>
    rw [hpc] at hs
    cases hs
  | panic e =>
    rw [hpc] at hs
    cases hs

theorem Inv.step {a : C × Act} (h : Inv s) (hs : step s a = some s') : Inv s' := by
  obtain ⟨c, a⟩ := a
  cases hcur : s.cur c with
  | some p =>
    cases a with
    | run ok =>
      simp only [Locks.step, hcur] at hs
      exact h.run hcur hs
    | call k =>
      simp only [Locks.step, hcur] at hs
      split_ifs at hs with huser
      cases hs
      exact h.leaveUser hcur huser k.starts
    | interrupt k =>
      simp only [Locks.step, hcur] at hs
      exact h.interrupt hcur hs
  | none =>
    cases a with
    | run ok =>
      simp only [Locks.step, hcur] at hs
      exact h.schedule hcur hs
    | call k =>
      simp only [Locks.step, hcur] at hs
      cases hs
    | interrupt k =>
      cases k with
      | yield =>
        simp only [Locks.step, hcur] at hs
        cases hs
      | wakeup chan =>
        simp only [Locks.step, hcur] at hs
        split at hs
        · next con hpc =>
            cases hs
            refine h.schedMove ⟨hcur, by simp [hpc]⟩ ?_ (fun _ _ _ => rfl) fun _ => Or.inl rfl
            rw [hpc]
            rfl
        · next con hpc =>
            cases hs
            refine h.schedMove ⟨hcur, by simp [hpc]⟩ ?_ (fun _ _ _ => rfl) fun _ => Or.inl rfl
            rw [hpc]
            rfl
        · cases hs

theorem inv_boot (d : Data) : Inv (boot C d) := by
  constructor
  · refine ⟨?_, ?_, ?_, ?_, ?_, ?_, ?_⟩
    · intro c p hp
      cases hp
    · intro c d p hp
      cases hp
    · intro p
      trivial
    · intro c p hp
      cases hp
    · intro p _ _
      exact ⟨rfl, fun _ => rfl⟩
    · intro p np b hp
      cases hp
    · intro p p' np b b' hp
      cases hp
  · refine ⟨?_, ?_, ?_, ?_⟩
    · intro c
      rfl
    · intro p
      rfl
    · intro c _ _ l
      constructor
      · intro hl
        cases hl
      · intro hl
        cases hl
    · intro c p hp
      cases hp

theorem inv_of_run {d : Data} {as : List (C × Act)} (h : exec step (boot C d) as = some s) :
    Inv s :=
  exec_invariant Inv (inv_boot d) (fun _ _ _ hi hs => hi.step hs) h

/-- On any number of CPUs and from any tables, a process that left user space when
its CPU held neither lock never takes a lock that the CPU holds and never gives
back one that it does not hold. When its system call returns the CPU holds neither
lock, except after `list_containers`. -/
theorem spinlocks_balanced {d : Data} {as : List (C × Act)}
    (h : exec step (boot C d) as = some s) (hp : s.cur c = some p)
    (hfree : ∀ l, s.entry p l = false) :
    (∀ l next, code p (s.pc p) = .acquire l next → s.lock l ≠ some c) ∧
    (∀ l next, code p (s.pc p) = .release l next → s.lock l = some c) ∧
    ∀ f r, s.pc p = .ret f r → ((∀ l, s.lock l ≠ some c) ↔ f ≠ .listContainers) := by
  have hi := inv_of_run h
  have ho := hi.owns c p hp
  refine ⟨?_, ?_, ?_⟩
  · intro l next hcode hl
    have ha := acquires hcode
    rw [ho.call ha.within l, hfree l, ha.before] at hl
    simp at hl
  · intro l next hcode
    exact hi.lock_of_held hp (releases (hi.wf p) hcode).before
  · intro f r hpc
    have hcall := ho.call (by rw [hpc]; exact id)
    simp only [hfree, hpc, Bool.false_eq_true, false_or] at hcall
    cases f
    case listContainers =>
      simp only [ne_eq, not_true_eq_false, iff_false, not_forall, not_not]
      exact ⟨.ptable, (hcall .ptable).mpr rfl⟩
    all_goals
      simp only [ne_eq, reduceCtorEq, not_false_eq_true, iff_true]
      intro l hl
      cases (hcall l).mp hl

/-- The tables after `userinit`. -/
def firstProcess : Data where
  proc := (userinit (Fin 1)).proc
  nextpid := 2
  initproc := 0
  kernel := Memory.boot threePages

/-- The first process forks and waits on CPU 0, and the child exits there. CPU 1
takes the first process up again and its `wait` is about to return. -/
def waits : List (Fin 2 × Act) :=
  List.replicate 4 (0, .run true) ++ (0, .call .fork) :: List.replicate 11 (0, .run true) ++
  (0, .call .wait) :: List.replicate 5 (0, .run true) ++
  (0, .call .exit) :: List.replicate 4 (0, .run true) ++
  List.replicate 64 (0, .run true) ++ List.replicate 6 (1, .run true)

theorem spinlocks_balanced_wait : ∃ s : Machine (Fin 2),
    exec step (boot (Fin 2) firstProcess) waits = some s ∧ s.pc 0 = .ret .wait 2 ∧
    ((∀ l, s.lock l ≠ some 1) ↔ Sys.wait ≠ .listContainers) := by
  obtain ⟨s, hs, hcur, hpc, hptable, hctable⟩ : ∃ s : Machine (Fin 2),
      exec step (boot (Fin 2) firstProcess) waits = some s ∧ s.cur 1 = some 0 ∧
      s.pc 0 = .ret .wait 2 ∧ s.entry 0 .ptable = false ∧ s.entry 0 .ctable = false := by
    decide +kernel
  refine ⟨s, hs, hpc, ?_⟩
  refine (spinlocks_balanced hs hcur ?_).2.2 .wait 2 hpc
  intro l
  cases l with
  | ptable => exact hptable
  | ctable => exact hctable

/-- The first process calls `list_containers`. -/
def lists : List (Fin 1 × Act) :=
  List.replicate 4 (0, .run true) ++ (0, .call .listContainers) :: List.replicate 2 (0, .run true)

/-- `list_containers` returns with the lock held; the next timer interrupt ends in
`panic`. -/
theorem listContainers_keeps_lock :
    (exec step (boot (Fin 1) firstProcess) lists).map
      (fun s => (s.pc 0, s.entry 0 .ptable, s.entry 0 .ctable, s.lock .ptable)) =
      some (.ret .listContainers 0, false, false, some 0) ∧
    (exec step (boot (Fin 1) firstProcess)
      (lists ++ [(0, .run true), (0, .interrupt .yield), (0, .run true)])).map
      (fun s => s.pc 0) = some (.panic .acquire) := by
  constructor <;> decide +kernel

end Locks

end Xv6.Ptable.Locks
