import Xv6.Proc.Machine

/-!
The invariants of the process table: who is on which CPU, who is whose parent,
and which identifiers are in use.
-/

namespace Xv6.Ptable

open Prog Container Transition

/-- The process exists and has not exited. -/
def ProcState.Alive : ProcState → Prop
  | .sleeping | .runnable | .running => True
  | .unused | .embryo | .zombie => False

instance : DecidablePred ProcState.Alive := fun st => by
  cases st <;> unfold ProcState.Alive <;> infer_instance

/-- States that differ in no more than where the process is scheduled. -/
def ProcState.Like (st st' : ProcState) : Prop := st = st' ∨ st.Alive ∧ st'.Alive

variable {st st' : ProcState}

theorem ProcState.Like.alive (h : st'.Like st) : st'.Alive ↔ st.Alive := by
  rcases h with rfl | ⟨h, h'⟩
  · rfl
  · exact iff_of_true h h'

theorem ProcState.Like.iff {st₀ : ProcState} (h : st'.Like st) (h₀ : ¬ st₀.Alive) :
    st' = st₀ ↔ st = st₀ := by
  rcases h with rfl | ⟨h, h'⟩
  · rfl
  · refine iff_of_false ?_ ?_
    · rintro rfl
      exact h₀ h
    · rintro rfl
      exact h₀ h'

theorem Rises.like {t t' : Table} {q : Slot} (h : Rises t t' q) :
    (t' q).state.Like (t q).state := by
  rcases h with heq | ⟨hs, hr⟩
  · exact Or.inl heq
  · rw [hs, hr]
    exact Or.inr ⟨trivial, trivial⟩

/-! ### CPUs -/

section Cpus

variable {C : Type} {t t' : Table} {cpu : C → Cpu}

/-- Which slot is on which CPU. -/
structure OnCpu (t : Table) (cpu : C → Cpu) : Prop where
  unique : ∀ c d p, (cpu c).proc = some p → (cpu d).proc = some p → c = d
  running : ∀ p, (t p).state = .running ↔ ∃ c, (cpu c).proc = some p
  idle : ∀ c, (∀ con i, (cpu c).pc ≠ .run con i) → (cpu c).proc = none

theorem OnCpu.congr (h : OnCpu t cpu)
    (hrun : ∀ p, (t' p).state = .running ↔ (t p).state = .running) : OnCpu t' cpu :=
  ⟨h.unique, fun p => (hrun p).trans (h.running p), h.idle⟩

/-- A slot changes that was not running and is not now, or was and is. -/
theorem OnCpu.setProc {q : Slot} {x : Proc} (h : OnCpu t cpu)
    (hx : x.state = .running ↔ (t q).state = .running) : OnCpu (set t q x) cpu :=
  h.congr (forall_set (C := fun p (y : Proc) => y.state = .running ↔ (t p).state = .running) hx
    fun _ _ => Iff.rfl)

variable [DecidableEq C] {c : C}

/-- A CPU that runs no process moves on in its scheduler. -/
theorem OnCpu.setCpu {pc : SchedPc} (h : OnCpu t cpu) (hc : (cpu c).proc = none) :
    OnCpu t (set cpu c ⟨none, pc⟩) := by
  have hproc (d : C) : (set cpu c ⟨none, pc⟩ d).proc = (cpu d).proc := by
    by_cases hd : d = c
    · subst hd
      simp [hc]
    · rw [set_of_ne _ _ hd]
  refine ⟨?_, ?_, ?_⟩
  · intro d e p
    rw [hproc, hproc]
    exact h.unique d e p
  · intro p
    simp only [hproc]
    exact h.running p
  · intro d hd
    rw [hproc]
    by_cases hdc : d = c
    · rw [hdc]
      exact hc
    · rw [set_of_ne _ _ hdc] at hd
      exact h.idle d hd

theorem OnCpu.dispatch {q : Slot} {con : Id} {i : Nat} (h : OnCpu t cpu)
    (hc : (cpu c).proc = none) (hq : (t q).state = .runnable) :
    OnCpu (set t q ((t q).setState .running)) (set cpu c ⟨some q, .run con i⟩) := by
  have hoff (d : C) : (cpu d).proc ≠ some q := by
    intro hd
    have := (h.running q).mpr ⟨d, hd⟩
    rw [hq] at this
    cases this
  have hcpu (d : C) (p : Slot) : (set cpu c ⟨some q, .run con i⟩ d).proc = some p ↔
      d = c ∧ p = q ∨ d ≠ c ∧ (cpu d).proc = some p := by
    by_cases hd : d = c
    · subst hd
      simp [eq_comm]
    · simp [set_of_ne _ _ hd, hd]
  refine ⟨?_, ?_, ?_⟩
  · intro d e p hd he
    rcases (hcpu d p).mp hd with ⟨rfl, rfl⟩ | ⟨-, hdp⟩
    · rcases (hcpu e p).mp he with ⟨rfl, -⟩ | ⟨-, hep⟩
      · rfl
      · exact absurd hep (hoff e)
    · rcases (hcpu e p).mp he with ⟨rfl, rfl⟩ | ⟨-, hep⟩
      · exact absurd hdp (hoff d)
      · exact h.unique d e p hdp hep
  · intro p
    simp only [hcpu]
    by_cases hp : p = q
    · subst hp
      simp [Proc.setState]
    · rw [set_of_ne _ _ hp, h.running p]
      constructor
      · rintro ⟨d, hd⟩
        refine ⟨d, Or.inr ⟨?_, hd⟩⟩
        rintro rfl
        rw [hc] at hd
        cases hd
      · rintro ⟨d, ⟨-, hpq⟩ | ⟨-, hd⟩⟩
        · exact absurd hpq hp
        · exact ⟨d, hd⟩
  · intro d hd
    by_cases hdc : d = c
    · subst hdc
      rw [set_self] at hd
      exact absurd rfl (hd con i)
    · rw [set_of_ne _ _ hdc] at hd ⊢
      exact h.idle d hd

/-- The process on CPU `c` calls `sched` after it changed its state. -/
theorem OnCpu.swtch {p : Slot} (h : OnCpu t cpu) (hp : (cpu c).proc = some p)
    (hself : (t' p).state ≠ .running)
    (hrun : ∀ q, q ≠ p → ((t' q).state = .running ↔ (t q).state = .running)) :
    OnCpu t' (set cpu c (cpu c).back) := by
  have hcpu (d : C) (q : Slot) : (set cpu c (cpu c).back d).proc = some q ↔
      d ≠ c ∧ (cpu d).proc = some q := by
    by_cases hd : d = c
    · subst hd
      simp [Cpu.back]
    · simp [set_of_ne _ _ hd, hd]
  refine ⟨?_, ?_, ?_⟩
  · intro d e q hd he
    exact h.unique d e q ((hcpu d q).mp hd).2 ((hcpu e q).mp he).2
  · intro q
    simp only [hcpu]
    by_cases hq : q = p
    · subst hq
      refine iff_of_false hself ?_
      rintro ⟨d, hd, hdq⟩
      exact hd (h.unique d c q hdq hp)
    · rw [hrun q hq, h.running q]
      constructor
      · rintro ⟨d, hd⟩
        refine ⟨d, ?_, hd⟩
        rintro rfl
        rw [hp] at hd
        exact hq (Option.some.inj hd).symm
      · rintro ⟨d, -, hd⟩
        exact ⟨d, hd⟩
  · intro d hd
    by_cases hdc : d = c
    · subst hdc
      simp [Cpu.back]
    · rw [set_of_ne _ _ hdc] at hd ⊢
      exact h.idle d hd

end Cpus

/-! ### Families -/

section Families

def Call.Forks (np : Slot) : Call → Prop
  | .forkAlloc q | .forkCopied q => q = np
  | _ => False

theorem Call.Forks.ne_user {np : Slot} {k : Call} (h : k.Forks np) : k ≠ .user := by
  rintro rfl
  exact h

/-- Who is whose parent, and which slots the forks in progress own. -/
structure Family (initproc : Slot) (t : Table) (call : Slot → Call) : Prop where
  parent : ∀ q r, (t q).parent = some r → (t r).state.Alive
  child : ∀ q, q ≠ initproc → ((t q).state.Alive ∨ (t q).state = .zombie) → (t q).parent ≠ none
  init : (t initproc).state.Alive
  forks : ∀ p np, (call p).Forks np → (t np).state = .embryo
  copied : ∀ p np, call p = .forkCopied np → (t np).parent = some p
  unique : ∀ p q np, (call p).Forks np → (call q).Forks np → p = q
  busy : ∀ p, call p ≠ .user → (t p).state.Alive

namespace Family

variable {initproc p np q : Slot} {t t' : Table} {call call' : Slot → Call}

section

variable (h : Family initproc t call) (hstate : ∀ q, (t' q).state.Like (t q).state)
  (hparent : ∀ q, (t' q).parent = (t q).parent)
include h hstate hparent

/-- Steps that create and end no process and set no parent; a process may go
on in a call other than `fork`. -/
theorem congr (hcall : ∀ p, call' p = call p ∨ (t p).state.Alive ∧ ∀ np, ¬ (call' p).Forks np) :
    Family initproc t' call' := by
  have hforks {p np : Slot} (hf : (call' p).Forks np) : call' p = call p := by
    rcases hcall p with heq | ⟨-, hnot⟩
    · exact heq
    · exact absurd hf (hnot np)
  refine ⟨?_, ?_, (hstate _).alive.mpr h.init, ?_, ?_, ?_, ?_⟩
  · intro q r hq
    rw [hparent] at hq
    exact (hstate r).alive.mpr (h.parent q r hq)
  · intro q hq hst
    rw [hparent]
    refine h.child q hq ?_
    rwa [(hstate q).alive, (hstate q).iff (by simp [ProcState.Alive])] at hst
  · intro p np hf
    refine ((hstate np).iff (by simp [ProcState.Alive])).mpr (h.forks p np ?_)
    rwa [← hforks hf]
  · intro p np hf
    have hforking : (call' p).Forks np := by rw [hf]; rfl
    have hsame := hforks hforking
    rw [hparent]
    exact h.copied p np (hsame ▸ hf)
  · intro p q np hp hq
    refine h.unique p q np ?_ ?_
    · rwa [← hforks hp]
    · rwa [← hforks hq]
  · intro p hp
    rw [(hstate p).alive]
    rcases hcall p with heq | ⟨halive, -⟩
    · exact h.busy p (heq ▸ hp)
    · exact halive

/-- The same with no call changed. -/
theorem congr_table : Family initproc t' call :=
  h.congr hstate hparent (fun _ => Or.inl rfl)

end

/-- A process goes on in a call other than `fork`. -/
theorem setCall {k : Call} (h : Family initproc t call) (hp : (t p).state.Alive)
    (hk : ∀ np, ¬ k.Forks np) : Family initproc t (set call p k) := by
  refine h.congr (fun _ => Or.inl rfl) (fun _ => rfl) ?_
  exact forall_set (C := fun q (k : Call) => k = call q ∨ (t q).state.Alive ∧ ∀ np, ¬ k.Forks np)
    (Or.inr ⟨hp, hk⟩) fun _ _ => Or.inl rfl

/-- A process gets another state that is as good. -/
theorem setProc {x : Proc} (h : Family initproc t call) (hx : x.state.Like (t q).state)
    (hparent : x.parent = (t q).parent) : Family initproc (set t q x) call :=
  h.congr_table
    (forall_set (C := fun r (y : Proc) => y.state.Like (t r).state) hx fun _ _ => Or.inl rfl)
    (forall_set (C := fun r (y : Proc) => y.parent = (t r).parent) hparent fun _ _ => rfl)

/-- Everything else in the table stays when a slot that is not alive changes. -/
theorem ne_of_alive {r : Slot} (hq : ¬ (t q).state.Alive) (hr : (t r).state.Alive) : r ≠ q := by
  rintro rfl
  exact hq hr

section

variable (h : Family initproc t call)
include h

/-- A slot that is not alive changes, and some calls with it. -/
theorem setSlot {x : Proc} (hnp : ¬ (t np).state.Alive)
    (hparent : x.parent = (t np).parent ∨ x.parent = none)
    (hchild : x.state.Alive ∨ x.state = .zombie → x.parent ≠ none)
    (hforks : ∀ q m, (call' q).Forks m → m = np ∧ x.state = .embryo ∨ m ≠ np ∧ (call q).Forks m)
    (hcopied : ∀ q m, call' q = .forkCopied m → m ≠ np ∧ call q = .forkCopied m)
    (hunique : ∀ q r, (call' q).Forks np → (call' r).Forks np → q = r)
    (hbusy : ∀ q, call' q ≠ .user → (t q).state.Alive) : Family initproc (set t np x) call' := by
  have hkeep {q : Slot} (hq : (t q).state.Alive) : (set t np x q).state.Alive := by
    rw [set_of_ne _ _ (ne_of_alive hnp hq)]
    exact hq
  refine ⟨?_, ?_, hkeep h.init, ?_, ?_, ?_, fun q hq => hkeep (hbusy q hq)⟩
  · intro q r hq
    refine hkeep (h.parent q r ?_)
    by_cases hqn : q = np
    · subst hqn
      rw [set_self] at hq
      rcases hparent with hp | hp
      · rwa [← hp]
      · rw [hp] at hq
        cases hq
    · rwa [set_of_ne _ _ hqn] at hq
  · intro q hq hst
    by_cases hqn : q = np
    · subst hqn
      rw [set_self] at hst ⊢
      exact hchild hst
    · rw [set_of_ne _ _ hqn] at hst ⊢
      exact h.child q hq hst
  · intro q m hf
    rcases hforks q m hf with ⟨rfl, hx⟩ | ⟨hm, hold⟩
    · rw [set_self, hx]
    · rw [set_of_ne _ _ hm]
      exact h.forks q m hold
  · intro q m hf
    obtain ⟨hm, hold⟩ := hcopied q m hf
    rw [set_of_ne _ _ hm]
    exact h.copied q m hold
  · intro q r m hq hr
    rcases hforks q m hq with ⟨rfl, -⟩ | ⟨hm, hqold⟩
    · exact hunique q r hq hr
    · exact h.unique q r m hqold ((hforks r m hr).resolve_left fun hr => hm hr.1).2

/-- `allocproc` takes a free slot for the running process `p`. -/
theorem fork (hp : (t p).state = .running) (hnp : (t np).state = .unused) (pid : Int) :
    Family initproc (set t np ((t np).alloc pid)) (set (set call np .user) p (.forkAlloc np)) := by
  obtain ⟨call', hcall'⟩ : ∃ k, k = set (set call np .user) p (.forkAlloc np) := ⟨_, rfl⟩
  rw [← hcall']
  have hself : call' p = .forkAlloc np := by rw [hcall', set_self]
  have hother {q : Slot} (hqp : q ≠ p) (hq : call' q ≠ .user) : call' q = call q := by
    rw [hcall', set_of_ne _ _ hqp] at hq ⊢
    refine set_of_ne _ _ fun hqn => hq ?_
    rw [hqn, set_self]
  have hne {q m : Slot} (hf : (call q).Forks m) : m ≠ np := by
    rintro rfl
    have := h.forks q m hf
    rw [hnp] at this
    cases this
  have hforks {q m : Slot} (hf : (call' q).Forks m) :
      q = p ∧ m = np ∨ m ≠ np ∧ (call q).Forks m := by
    by_cases hqp : q = p
    · rw [hqp, hself] at hf
      exact Or.inl ⟨hqp, hf.symm⟩
    · rw [hother hqp hf.ne_user] at hf
      exact Or.inr ⟨hne hf, hf⟩
  have hown {q : Slot} (hf : (call' q).Forks np) : q = p :=
    ((hforks hf).resolve_right fun hq => hq.1 rfl).1
  refine h.setSlot (by rw [hnp]; exact id) (Or.inl rfl) (by simp [Proc.alloc, ProcState.Alive])
    (fun q m hf => (hforks hf).imp_left fun hq => ⟨hq.2, rfl⟩) ?_
    (fun q r hq hr => (hown hq).trans (hown hr).symm) ?_
  · intro q m hf
    have hqp : q ≠ p := by
      rintro rfl
      rw [hself] at hf
      cases hf
    rw [hother hqp (by rw [hf]; simp)] at hf
    exact ⟨hne (q := q) (by rw [hf]; rfl), hf⟩
  · intro q hq
    by_cases hqp : q = p
    · rw [hqp, hp]
      trivial
    · exact h.busy q (hother hqp hq ▸ hq)

/-- The process `p` is at the end of a `fork` of `np`: the slot is given up or
started, with the state and parent that `x` has. -/
theorem endFork {x : Proc} (hp : (call p).Forks np) (hstate : x.state = .unused ∨ x.state.Alive)
    (hparent : x.parent = (t np).parent) (hchild : x.state.Alive → x.parent ≠ none) :
    Family initproc (set t np x) (set call p .user) := by
  have hcall {q : Slot} (hq : set call p .user q ≠ .user) :
      q ≠ p ∧ set call p .user q = call q := by
    by_cases hqp : q = p
    · subst hqp
      rw [set_self] at hq
      exact absurd rfl hq
    · exact ⟨hqp, set_of_ne _ _ hqp⟩
  have hforks {q m : Slot} (hf : (set call p .user q).Forks m) :
      m ≠ np ∧ (call q).Forks m := by
    obtain ⟨hqp, heq⟩ := hcall hf.ne_user
    rw [heq] at hf
    refine ⟨?_, hf⟩
    rintro rfl
    exact hqp (h.unique q p m hf hp)
  refine h.setSlot (by rw [h.forks p np hp]; exact id) (Or.inl hparent) ?_
    (fun q m hf => Or.inr (hforks hf)) ?_ (fun q _ hq => absurd rfl (hforks hq).1)
    fun q hq => h.busy q ((hcall hq).2 ▸ hq)
  · intro hst
    apply hchild
    rcases hstate with hx | hx
    · simp [hx, ProcState.Alive] at hst
    · exact hx
  · intro q m hf
    have hfq : (set call p .user q).Forks m := by rw [hf]; rfl
    exact ⟨(hforks hfq).1, (hcall hfq.ne_user).2 ▸ hf⟩

theorem forkParent (hp : (t p).state = .running) (hcall : call p = .forkAlloc np) :
    Family initproc (set t np { t np with parent := some p }) (set call p (.forkCopied np)) := by
  have hpnp : (call p).Forks np := by rw [hcall]; rfl
  have hpalive : (t p).state.Alive := by rw [hp]; trivial
  have hstate : ∀ q, (set t np { t np with parent := some p } q).state = (t q).state :=
    forall_set (C := fun q (x : Proc) => x.state = (t q).state) rfl fun _ _ => rfl
  have hforks (q m : Slot) : (set call p (.forkCopied np) q).Forks m ↔ (call q).Forks m :=
    forall_set (C := fun q (k : Call) => k.Forks m ↔ (call q).Forks m) (by rw [hcall]; rfl)
      (fun _ _ => Iff.rfl) q
  refine ⟨?_, ?_, ?_, ?_, ?_, ?_, ?_⟩
  · intro q r hq
    rw [hstate]
    by_cases hqn : q = np
    · subst hqn
      rw [set_self] at hq
      cases hq
      exact hpalive
    · rw [set_of_ne _ _ hqn] at hq
      exact h.parent q r hq
  · intro q hq hst
    rw [hstate] at hst
    by_cases hqn : q = np
    · subst hqn
      simp
    · rw [set_of_ne _ _ hqn]
      exact h.child q hq hst
  · rw [hstate]
    exact h.init
  · intro q m hf
    rw [hstate]
    exact h.forks q m ((hforks q m).mp hf)
  · intro q m hf
    by_cases hq : q = p
    · subst hq
      rw [set_self] at hf
      cases hf
      simp
    · rw [set_of_ne _ _ hq] at hf
      have hm : m ≠ np := by
        rintro rfl
        exact hq (h.unique q p m (by rw [hf]; rfl) hpnp)
      rw [set_of_ne _ _ hm]
      exact h.copied q m hf
  · intro q r m hq hr
    exact h.unique q r m ((hforks q m).mp hq) ((hforks r m).mp hr)
  · intro q hq
    rw [hstate]
    by_cases hqp : q = p
    · rw [hqp]
      exact hpalive
    · rw [set_of_ne _ _ hqp] at hq
      exact h.busy q hq

/-- A process other than `initproc` exits; nobody is left with a dead parent. -/
theorem exit (hp : (t p).state = .running) (hcall : call p = .user) (hne : p ≠ initproc)
    (ht : Exited initproc p t t') : Family initproc t' call := by
  have hlike (q : Slot) (hq : q ≠ p) : (t' q).state.Like (t q).state := (ht.state q hq).like
  have hinit : (t' initproc).state.Alive := (hlike _ (Ne.symm hne)).alive.mpr h.init
  have hbusy {q : Slot} (hq : call q ≠ .user) : q ≠ p := by
    rintro rfl
    exact hq hcall
  refine ⟨?_, ?_, hinit, ?_, ?_, h.unique, ?_⟩
  · intro q r hq
    rw [ht.parent] at hq
    split_ifs at hq with hqp
    · cases hq
      exact hinit
    · have hrp : r ≠ p := by
        rintro rfl
        exact hqp hq
      exact (hlike r hrp).alive.mpr (h.parent q r hq)
  · intro q hq hst
    have hold : (t q).parent ≠ none := by
      apply h.child q hq
      by_cases hqp : q = p
      · rw [hqp, hp]
        exact Or.inl trivial
      · rwa [(hlike q hqp).alive, (hlike q hqp).iff (by simp [ProcState.Alive])] at hst
    rw [ht.parent]
    split_ifs
    · simp
    · exact hold
  · intro q m hf
    have hm := h.forks q m hf
    have hmp : m ≠ p := by
      rintro rfl
      rw [hp] at hm
      cases hm
    exact ((hlike m hmp).iff (by simp [ProcState.Alive])).mpr hm
  · intro q m hf
    have hold := h.copied q m hf
    have hqp : q ≠ p := hbusy (by rw [hf]; simp)
    rw [ht.parent, if_neg]
    · exact hold
    · rw [hold]
      simpa using hqp
  · intro q hq
    exact (hlike q (hbusy hq)).alive.mpr (h.busy q hq)

/-- A zombie is removed from the table. -/
theorem reap (hq : (t q).state = .zombie) : Family initproc (set t q (t q).reap) call := by
  have hne {r m : Slot} (hf : (call r).Forks m) : m ≠ q := by
    rintro rfl
    have := h.forks r m hf
    rw [hq] at this
    cases this
  refine h.setSlot (by rw [hq]; exact id) (Or.inr rfl) (by simp [Proc.reap, ProcState.Alive])
    (fun r m hf => Or.inr ⟨hne hf, hf⟩) ?_ (fun r r' => h.unique r r' q) h.busy
  intro r m hf
  exact ⟨hne (r := r) (by rw [hf]; rfl), hf⟩

end

end Family

end Families

/-! ### Steps -/

section Steps

variable {C : Type} {s s' : Machine C}

structure Inv (s : Machine C) : Prop where
  onCpu : OnCpu s.proc s.cpu
  family : Family s.initproc s.proc s.call

theorem inv_userinit (C : Type) : Inv (userinit C) := by
  have hstate (q : Slot) : ((userinit C).proc q).state = if q = 0 then .runnable else .unused := rfl
  refine ⟨⟨?_, ?_, ?_⟩, ⟨?_, ?_, ?_, ?_, ?_, ?_, ?_⟩⟩
  · intro c d p hc
    cases hc
  · intro p
    refine iff_of_false ?_ ?_
    · rw [hstate]
      split_ifs <;> simp
    · rintro ⟨c, hc⟩
      cases hc
  · intro c _
    rfl
  · intro q r hq
    cases hq
  · intro q hq hst
    have hq0 : q ≠ 0 := hq
    rw [hstate, if_neg hq0] at hst
    simp [ProcState.Alive] at hst
  · rw [hstate]
    exact trivial
  · intro p np hf
    exact hf.elim
  · intro p np hf
    cases hf
  · intro p q np hf
    exact hf.elim
  · intro p hp
    exact absurd rfl hp

section

variable (h : Inv s)
include h

theorem Inv.running {c : C} {p : Slot} (hp : (s.cpu c).proc = some p) :
    (s.proc p).state = .running :=
  (h.onCpu.running p).mpr ⟨c, hp⟩

theorem Inv.alive {c : C} {p : Slot} (hp : (s.cpu c).proc = some p) : (s.proc p).state.Alive := by
  rw [h.running hp]
  trivial

theorem Inv.idle {c : C} (hpc : ∀ con i, (s.cpu c).pc ≠ .run con i) :
    (s.cpu c).proc = none := h.onCpu.idle c hpc

/-- A change of the table that only wakes processes. -/
theorem Inv.woken {t : Table} (ht : Roused s.proc t) : Inv { s with proc := t } :=
  ⟨h.onCpu.congr (fun q => (ht.state q).state_iff (by simp) (by simp)),
    h.family.congr_table (fun q => (ht.state q).like) ht.parent⟩

theorem Inv.setCall {p : Slot} {k : Call} (hp : (s.proc p).state.Alive) (hk : ∀ np, ¬ k.Forks np) :
    Inv (s.setCall p k) :=
  ⟨h.onCpu, h.family.setCall hp hk⟩

theorem Inv.setLock (lock : Option C) : Inv { s with lock := lock } :=
  ⟨h.onCpu, h.family⟩

theorem Inv.setContainers (containers : Tables) : Inv { s with containers := containers } :=
  ⟨h.onCpu, h.family⟩

theorem Inv.release (p : Slot) : Inv (s.release p) := ⟨h.onCpu, h.family⟩

theorem Inv.tidy (p : Slot) : Inv (s.setProc p (s.proc p).tidy) :=
  ⟨h.onCpu.setProc Iff.rfl, h.family.setProc (Or.inl rfl) rfl⟩

end

variable [DecidableEq C] {c : C} {p : Slot}

theorem Inv.setCpu {pc : SchedPc} (h : Inv s) (hc : (s.cpu c).proc = none) :
    Inv (s.setCpu c ⟨none, pc⟩) :=
  ⟨h.onCpu.setCpu hc, h.family⟩

/-- The running process parks itself with a new state. -/
theorem Inv.park {x : Proc} {why : Sched} (h : Inv s) (hp : (s.cpu c).proc = some p)
    (hx : x.state = .sleeping ∨ x.state = .runnable) (hparent : x.parent = (s.proc p).parent) :
    Inv ((s.setProc p x).swtch c p why) := by
  have halive : x.state.Alive := by rcases hx with hx | hx <;> rw [hx] <;> trivial
  refine ⟨?_, ?_⟩
  · refine h.onCpu.swtch hp ?_ ?_
    · change (set s.proc p x p).state ≠ _
      rw [set_self]
      rcases hx with hx | hx <;> rw [hx] <;> simp
    · intro q hq
      change (set s.proc p x q).state = _ ↔ _
      rw [set_of_ne _ _ hq]
  · exact h.family.setProc (Or.inr ⟨halive, h.alive hp⟩) hparent

theorem Inv.waitLoop (h : Inv s) (hp : (s.cpu c).proc = some p) : Inv (waitLoop s c p) := by
  rcases waitLoop_cases s c p with ⟨q, hq, heq⟩ | heq | ⟨-, heq⟩
  · rw [heq]
    have hz := (zombieChild_some hq).2
    refine Inv.release ⟨h.onCpu.setProc ?_, h.family.reap hz⟩ p
    rw [hz]
    simp [Proc.reap]
  · rw [heq]
    exact h.release p
  · rw [heq]
    exact h.park hp (Or.inl rfl) rfl

theorem inv_step {l : C × Act} (h : Inv s) (hstep : step s l = some s') : Inv s' := by
  cases step_cases hstep with
  | look _ _ _ _ hpc | scanNext _ _ _ hpc => exact h.setCpu (h.idle (by simp [hpc]))
  | enter _ _ hpc | scanEnd _ _ _ hpc => exact (h.setLock _).setCpu (h.idle (by simp [hpc]))
  | dispatch c con i q hpc hrun =>
    refine ⟨h.onCpu.dispatch (h.idle (by simp [hpc])) hrun, h.family.setProc (Or.inr ?_) rfl⟩
    rw [hrun]
    exact ⟨trivial, trivial⟩
  | wakeup c chan => exact h.woken (wakeup1_roused _ _)
  | resumed c p => exact h.release p
  | slept c p => exact (h.tidy p).release p
  | waited c p hp => exact (h.tidy p).waitLoop hp
  | forkFail c p np hp hcall =>
    have hforks : (s.call p).Forks np := by rw [hcall]; rfl
    refine ⟨h.onCpu.setProc ?_, h.family.endFork hforks (Or.inl rfl) rfl (fun hx => hx.elim)⟩
    rw [h.family.forks p np hforks]
    simp [Proc.setState]
  | forkParent c p np hp hcall =>
    have hrun := h.running (current_eq_some.mp hp).1
    exact ⟨h.onCpu.setProc Iff.rfl, h.family.forkParent hrun hcall⟩
  | create c p => exact h.setContainers _
  | destroy c p z id hp => exact h.setCall (h.alive (current_eq_some.mp hp).1) (fun _ hf => hf)
  | clear _ _ _ _ hp | destroyed _ _ _ hp =>
    exact (h.setContainers _).setCall (h.alive (current_eq_some.mp hp).1) (fun _ hf => hf)
  | forkFull c p => exact h
  | fork c p np hp hlock hcall hnp =>
    have hunused := unusedSlot_state hnp
    refine ⟨h.onCpu.setProc ?_, h.family.fork (h.running (current_eq_some.mp hp).1) hunused _⟩
    rw [hunused]
    simp [Proc.alloc]
  | forkDone c p np hp hlock hcall =>
    have hforks : (s.call p).Forks np := by rw [hcall]; rfl
    refine ⟨h.onCpu.setProc ?_, h.family.endFork hforks (Or.inr trivial) rfl ?_⟩
    · rw [h.family.forks p np hforks]
      simp [Proc.start]
    · intro _ hnone
      have hparent := h.family.copied p np hcall
      rw [show (s.proc np).parent = none from hnone] at hparent
      cases hparent
  | exit c p hp hlock hcall hne =>
    have hproc := (current_eq_some.mp hp).1
    have hexit := exitTable_exited s.initproc p s.proc
    refine ⟨h.onCpu.swtch hproc ?_ ?_, h.family.exit (h.running hproc) hcall hne hexit⟩
    · change (exitTable s.initproc p s.proc p).state ≠ _
      rw [hexit.self]
      simp
    · intro q hq
      exact (hexit.state q hq).state_iff (by simp) (by simp)
  | wait c p hp => exact h.waitLoop (current_eq_some.mp hp).1
  | kill c p pid hp => exact h.woken (kill_roused _ _)
  | sleep c p a hp => exact h.park (current_eq_some.mp hp).1 (Or.inl rfl) rfl
  | yield c p hp => exact h.park (current_eq_some.mp hp).1 (Or.inr rfl) rfl
  | join | leave => exact h.woken (addProcessToContainer_roused _ _ _)
  | list c p => exact h.setLock _
  | destroyNext _ _ _ _ _ hp | destroyEnd _ _ _ _ hp =>
    exact h.setCall (h.alive (current_eq_some.mp hp).1) (fun _ hf => hf)
  | destroyKill c p q id pid hp =>
    have hkill : Inv { s with proc := kill pid s.proc } := h.woken (kill_roused _ _)
    exact hkill.setCall (hkill.alive (current_eq_some.mp hp).1) (fun _ hf => hf)

end Steps

end Xv6.Ptable
