import Xv6.Lib.Transition
import Xv6.Vm.Copy

/-!
No page is lost and none is used twice: every function of `vm.c` that takes or
gives pages keeps the accounts, whether it succeeds or runs out of memory, and
so does every run of calls. Nothing is said of a call that panics.
-/

namespace Xv6.Vm

open Prog

variable {img : Image} {st : Stock} {m m' : Mem} {dirs held free : List Nat} {d : Nat} {s : Space}

/-- The free pages, those in hand and those of the directories are the stock. -/
def Accounts (st : Stock) (m : Mem) (dirs held : List Nat) : Prop :=
  ∃ free, m.FreeList free ∧ (free ++ (held ++ dirs.flatMap m.owned)).Perm st.pages

theorem Accounts.perm {dirs' held' : List Nat} (h : Accounts st m dirs held)
    (hdirs : dirs.Perm dirs')
    (hheld : held.Perm held') : Accounts st m dirs' held' := by
  obtain ⟨free, hfree, hperm⟩ := h
  refine ⟨free, hfree, List.Perm.trans ?_ hperm⟩
  exact (hheld.append (hdirs.flatMap_right _)).symm.append_left free

theorem Accounts.pool (h : Accounts st m dirs []) :
    ∃ free, Pool st m m free (dirs.flatMap m.owned) := by
  obtain ⟨free, hfree, hperm⟩ := h
  exact ⟨free, hfree, hperm, fun _ _ => rfl⟩

/-- One of the directories, and the others as the rest of memory. -/
theorem Accounts.shows (h : Accounts st m (d :: dirs) []) :
    ∃ free, Shows st m m d free (dirs.flatMap m.owned) (m.space d) := by
  obtain ⟨free, hfree, hperm⟩ := h
  rw [List.flatMap_cons, List.nil_append] at hperm
  refine ⟨free, hfree, ?_, fun _ _ => rfl, fun _ _ => rfl, fun _ _ _ => rfl, fun _ _ _ _ => rfl⟩
  exact (List.Perm.append_left free List.perm_append_comm).trans hperm

theorem Mem.flatMap_owned_kept (h : ∀ p ∈ dirs.flatMap m.owned, m'.page p = m.page p) :
    dirs.flatMap m'.owned = dirs.flatMap m.owned :=
  Mem.flatMap_owned_congr fun d hd p hp => h p (List.mem_flatMap.mpr ⟨d, hd, hp⟩)

theorem Pool.accounts (h : Pool st m m' free (dirs.flatMap m.owned)) : Accounts st m' dirs [] := by
  refine ⟨free, h.list, ?_⟩
  rw [Mem.flatMap_owned_kept h.kept]
  exact h.all

theorem Shows.accounts (h : Shows st m m' d free (dirs.flatMap m.owned) s) :
    Accounts st m' (d :: dirs) [] := by
  refine ⟨free, h.list, ?_⟩
  rw [List.flatMap_cons, Mem.flatMap_owned_kept h.kept, List.nil_append]
  exact (List.Perm.append_left free List.perm_append_comm).trans h.all

/-- What holds if the function returns. -/
abbrev Ends {α : Type} (x : VmM α) (Q : α → Mem → Prop) (m : Mem) : Prop :=
  wp x Q (fun _ _ => True) m

theorem setupkvm_ends (h : Accounts st m dirs []) :
    Ends (setupkvm img) (fun d m' => Accounts st m' (if d = 0 then dirs else d :: dirs) []) m := by
  obtain ⟨free, hpool⟩ := h.pool
  refine hpool.wp_setupkvm (fun _ _ _ _ => trivial) ?_ ?_
  · intro m' free' _ hm'
    rw [if_pos rfl]
    exact hm'.accounts
  · intro d m' free' s' hpos _ _ hm'
    rw [if_neg hpos]
    exact hm'.accounts

theorem freevm_ends (h : Accounts st m (d :: dirs) []) :
    Ends (freevm img d) (fun _ m' => Accounts st m' dirs []) m := by
  obtain ⟨free, hshows⟩ := h.shows
  exact hshows.wp_freevm (fun _ _ _ _ => trivial) fun _ _ hm' => hm'.accounts

theorem deallocuvm_ends {oldsz newsz : Nat} (h : Accounts st m (d :: dirs) [])
    (hsz : oldsz ≤ KERNBASE) :
    Ends (deallocuvm img d oldsz newsz) (fun _ m' => Accounts st m' (d :: dirs) []) m := by
  obtain ⟨free, hshows⟩ := h.shows
  exact hshows.wp_deallocuvm hsz (fun _ _ _ _ => trivial) (fun _ => h) fun _ _ hm' => hm'.accounts

theorem allocuvm_ends {oldsz newsz : Nat} (h : Accounts st m (d :: dirs) []) :
    Ends (allocuvm img d oldsz newsz) (fun _ m' => Accounts st m' (d :: dirs) []) m := by
  obtain ⟨free, hshows⟩ := h.shows
  exact hshows.wp_allocuvm (fun _ _ _ _ => trivial) (fun _ => h) (fun _ _ => h)
    (fun _ _ => trivial) (fun _ _ _ _ _ _ hm' => hm'.accounts) fun _ _ _ _ _ _ _ hm' => hm'.accounts

theorem copyuvm_ends {pgdir sz : Nat} (h : Accounts st m dirs []) (hdir : pgdir ∈ dirs)
    (hsz : sz ≤ KERNBASE) :
    Ends (copyuvm img pgdir sz) (fun d m' => Accounts st m' (if d = 0 then dirs else d :: dirs) [])
      m := by
  obtain ⟨free, hpool⟩ := h.pool
  have hamong : Among m pgdir (dirs.flatMap m.owned) := fun p hp =>
    List.mem_flatMap.mpr ⟨pgdir, hdir, hp⟩
  refine hpool.wp_copyuvm hsz hamong (fun _ _ _ _ => trivial) (fun _ _ => ⟨trivial, trivial⟩) ?_ ?_
  · intro m' free' hm'
    rw [if_pos rfl]
    exact hm'.accounts
  · intro d m' free' s' hpos hm'
    rw [if_neg hpos]
    exact hm'.accounts

/-! ### Runs of calls -/

/-- Between calls, no page is in hand. -/
def State.Balanced (st : Stock) (s : State) : Prop := Accounts st s.mem s.dirs []

theorem Balanced.created {s s' : State} {x : VmM Nat} (h : Ends x (fun d m' =>
      Accounts st m' (if d = 0 then s.dirs else d :: s.dirs) []) s.mem)
    (hret : s.created (x s.mem) = some s') : s'.Balanced st := by
  unfold Ends wp at h
  generalize x s.mem = r at h hret
  obtain ⟨_ | d, m'⟩ := r
  · cases hret
  · cases hret
    exact h

theorem Balanced.returned {α : Type} {s s' : State} {x : VmM α} {dirs : List Nat}
    (h : Ends x (fun _ m' => Accounts st m' dirs []) s.mem)
    (hret : State.returned dirs (x s.mem) = some s') : s'.Balanced st := by
  unfold Ends wp at h
  generalize x s.mem = r at h hret
  obtain ⟨_ | a, m'⟩ := r
  · cases hret
  · cases hret
    exact h

theorem step_balanced {s s' : State} {c : Call} (h : s.Balanced st)
    (hstep : step img s c = some s') : s'.Balanced st := by
  have hfront : ∀ {d}, d ∈ s.dirs → Accounts st s.mem (d :: s.dirs.erase d) [] :=
    fun hd => Accounts.perm h (List.perm_cons_erase hd) (List.Perm.refl _)
  have hback : ∀ {d} {m : Mem}, d ∈ s.dirs → Accounts st m (d :: s.dirs.erase d) [] →
      Accounts st m s.dirs [] :=
    fun hd hm => hm.perm (List.perm_cons_erase hd).symm (List.Perm.refl _)
  cases c with
  | setupkvm => exact Balanced.created (setupkvm_ends h) hstep
  | allocuvm pgdir oldsz newsz =>
    obtain ⟨hd, hret⟩ := Option.ite_none_right_eq_some.mp hstep
    exact Balanced.returned
      (wp_mono (allocuvm_ends (hfront hd)) (fun _ _ => hback hd) fun _ _ he => he) hret
  | deallocuvm pgdir oldsz newsz =>
    obtain ⟨⟨hd, hsz⟩, hret⟩ := Option.ite_none_right_eq_some.mp hstep
    exact Balanced.returned
      (wp_mono (deallocuvm_ends (hfront hd) hsz) (fun _ _ => hback hd) fun _ _ he => he) hret
  | copyuvm pgdir sz =>
    obtain ⟨⟨hd, hsz⟩, hret⟩ := Option.ite_none_right_eq_some.mp hstep
    exact Balanced.created (copyuvm_ends h hd hsz) hret
  | freevm pgdir =>
    obtain ⟨hd, hret⟩ := Option.ite_none_right_eq_some.mp hstep
    exact Balanced.returned (freevm_ends (hfront hd)) hret

/-- Whatever pages are free and owned at first, a run of calls ends with the
same pages free and owned, each of them once. -/
theorem pages_conserved {s s' : State} {calls : List Call} {free : List Nat}
    (hfree : s.mem.FreeList free) (hnodup : (free ++ s.dirs.flatMap s.mem.owned).Nodup)
    (hpages : ∀ v ∈ free ++ s.dirs.flatMap s.mem.owned, IsPage v)
    (hrun : Transition.exec (step img) s calls = some s') :
    ∃ free', s'.mem.FreeList free' ∧ (free' ++ s'.dirs.flatMap s'.mem.owned).Nodup ∧
      (free' ++ s'.dirs.flatMap s'.mem.owned).Perm (free ++ s.dirs.flatMap s.mem.owned) := by
  obtain ⟨st, hst⟩ : ∃ st : Stock, st.pages = free ++ s.dirs.flatMap s.mem.owned :=
    ⟨⟨_, hnodup, hpages⟩, rfl⟩
  have hall : free ++ ([] ++ s.dirs.flatMap s.mem.owned) = st.pages := by
    rw [hst, List.nil_append]
  have hstart : s.Balanced st := ⟨free, hfree, List.Perm.of_eq hall⟩
  obtain ⟨free', hfree', hperm⟩ := Transition.exec_invariant (State.Balanced st) hstart
    (fun _ _ _ h hstep => step_balanced h hstep) hrun
  rw [List.nil_append] at hperm
  refine ⟨free', hfree', hperm.nodup_iff.mpr st.nodup, ?_⟩
  rw [← hst]
  exact hperm

/-- Two pages and their table leave one page: the copy runs out of memory in
`setupkvm`, and the second growth takes the page and then runs out. -/
def scarceRun : List Call :=
  [.allocuvm 0x80400000 0 8192, .copyuvm 0x80400000 8192, .allocuvm 0x80400000 8192 20480,
    .deallocuvm 0x80400000 8192 4096]

theorem pages_conserved_outOfMemory :
    ∃ s', Transition.exec (step smallImage) smallMachine scarceRun = some s' ∧
      s'.dirs = [0x80400000] ∧
      ∃ free', s'.mem.FreeList free' ∧ (free' ++ s'.dirs.flatMap s'.mem.owned).Nodup ∧
        (free' ++ s'.dirs.flatMap s'.mem.owned).Perm
          (smallFree ++ smallMachine.dirs.flatMap smallMachine.mem.owned) := by
  obtain ⟨s', hrun, hdirs⟩ : ∃ s', Transition.exec (step smallImage) smallMachine scarceRun =
      some s' ∧ s'.dirs = [0x80400000] := by decide +kernel
  have howned : smallMachine.dirs.flatMap smallMachine.mem.owned = [0x80400000] := by
    rw [smallMachine, List.flatMap_singleton]
    exact Mem.owned_of_zero rfl
  refine ⟨s', hrun, hdirs, pages_conserved smallMachine_list ?_ ?_ hrun⟩
  · rw [howned]
    decide
  · rw [howned]
    unfold IsPage
    decide

end Xv6.Vm
