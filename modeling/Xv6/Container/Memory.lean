import Xv6.Container.Basic
import Xv6.Lib.Transition
import Xv6.Vm.Uvm

/-!
`container_malloc`: the table of mappings that each container has. Each call
takes a page from `kalloc` and the next addresses of the guest. The table is set
up once, by `containerInit`; `createContainer` and `destroyContainer` do not touch
it.

`join_container` and `leave_container` only change the container of the caller,
which is an argument here.
-/

namespace Xv6.Container.Memory

open Prog Transition Vm

structure PgElement where
  gva : Int
  hva : Nat
  pid : Int
deriving DecidableEq, Repr

/-- The slots of `page`. -/
def NPAGE : Nat := 100

/-- `nextGVA` and `pgTable` of a container. -/
structure Guest where
  nextGVA : Int
  next : Nat
  page : Nat → PgElement

/-- A call of `container_malloc`: the slot and what it wrote there, with the size
that was asked for. -/
structure Record where
  id : Id
  index : Nat
  gva : Int
  numBytes : Int
  hva : Nat
deriving DecidableEq, Repr

/-- The `log` and its length when a container was created are for the statements
only. -/
structure Kernel where
  tables : Tables
  guest : Id → Guest
  mem : Mem
  log : List Record
  born : Id → Nat
  fault : Bool

/-- `containerInit` -/
def boot (mem : Mem) : Kernel where
  tables := containerInit
  guest := fun _ => ⟨0, 0, fun _ => ⟨0, 0, 0⟩⟩
  mem := mem
  log := []
  born := fun _ => 0
  fault := false

/-- An `int` that was assigned `z`. -/
def int (z : Int) : Int := (z + 2 ^ 31) % 2 ^ 32 - 2 ^ 31

inductive Fault where
  | outsideTable
  | vm (e : Vm.Panic)

def onMem {α : Type} (x : VmM α) : Prog Kernel Fault α := fun k =>
  match x k.mem with
  | (.ok r, m) => (.ok r, { k with mem := m })
  | (.error e, m) => (.error (.vm e), { k with mem := m })

def Kernel.setGuest (k : Kernel) (id : Id) (g : Guest) : Kernel :=
  { k with guest := set k.guest id g }

/-- The loop over the containers stops at most at one, as their `containerID`s are
their places in the table. A write behind the table is an error. -/
def containerMalloc (cid numBytes pid : Int) : Prog Kernel Fault Unit :=
  match entry cid with
  | none => return ()
  | some id => do
    let g ← gets fun k => k.guest id
    modify fun k => k.setGuest id
      { g with nextGVA := int (g.nextGVA + numBytes), next := g.next + 1 }
    panicIf (NPAGE ≤ g.next) .outsideTable
    let hva ← onMem kalloc
    modify fun k => { k.setGuest id
      { k.guest id with page := set (k.guest id).page g.next ⟨g.nextGVA, hva, pid⟩ } with
      log := k.log ++ [⟨id, g.next, g.nextGVA, numBytes, hva⟩] }

/-- `createContainer` -/
def Kernel.create (k : Kernel) : Option Id × Kernel :=
  match createContainer k.tables with
  | (some id, t) => (some id, { k with tables := t, born := set k.born id k.log.length })
  | (none, t) => (none, { k with tables := t })

/-- `destroyContainer`, up to the processes. -/
def Kernel.destroy (k : Kernel) (id : Id) : Kernel :=
  { k with tables := destroyContainer k.tables id }

/-- `clear` is the store that `sys_destroy_container` makes without the lock. -/
inductive Act where
  | create
  | clear (id : Id)
  | destroy (id : Id)
  | malloc (cid numBytes pid : Int)
deriving DecidableEq

/-- Nothing comes after a write behind the table. -/
def step (k : Kernel) (a : Act) : Option Kernel :=
  if k.fault then none
  else match a with
    | .create => some k.create.2
    | .clear id =>
      some { k with tables := { k.tables with containers := set k.tables.containers id false } }
    | .destroy id => some (k.destroy id)
    | .malloc cid numBytes pid =>
      match containerMalloc cid numBytes pid k with
      | (.ok _, k') => some k'
      | (.error _, k') => some { k' with fault := true }

/-- The records of a container since it was created. -/
def Kernel.since (k : Kernel) (id : Id) : List Record :=
  (k.log.drop (k.born id)).filter fun r => r.id = id

/-! ### One call -/

/-- Memory after `kalloc`. -/
def taken (m : Mem) : Mem := if m.freelist ≠ 0 then { m with freelist := m.next m.freelist } else m

theorem kalloc_eq (m : Mem) : kalloc m = (.ok m.freelist, taken m) := by
  unfold kalloc taken
  rw [bind_ok (show gets Mem.freelist m = (.ok m.freelist, m) from rfl)]
  unfold Prog.when
  split <;> rfl

/-- A new entry for the container `id`. -/
def Kernel.mapped (k : Kernel) (id : Id) (numBytes pid : Int) : Kernel :=
  { k.setGuest id
      { nextGVA := int ((k.guest id).nextGVA + numBytes)
        next := (k.guest id).next + 1
        page := set (k.guest id).page (k.guest id).next
          ⟨(k.guest id).nextGVA, k.mem.freelist, pid⟩ } with
    mem := taken k.mem
    log := k.log ++ [⟨id, (k.guest id).next, (k.guest id).nextGVA, numBytes, k.mem.freelist⟩] }

section Call

variable {k k' : Kernel} {cid numBytes pid : Int} {id : Id}

theorem wp_onMem_kalloc {Q : Nat → Kernel → Prop} {E : Fault → Kernel → Prop}
    (h : Q k.mem.freelist { k with mem := taken k.mem }) : wp (onMem kalloc) Q E k := by
  unfold wp onMem
  rw [kalloc_eq]
  exact h

theorem containerMalloc_none (h : entry cid = none) :
    containerMalloc cid numBytes pid k = (.ok (), k) := by
  unfold containerMalloc
  rw [h]
  rfl

theorem containerMalloc_some (h : entry cid = some id) (hroom : (k.guest id).next < NPAGE) :
    containerMalloc cid numBytes pid k = (.ok (), k.mapped id numBytes pid) := by
  have hwp : wp (containerMalloc cid numBytes pid) (fun _ k' => k' = k.mapped id numBytes pid)
      (fun _ _ => False) k := by
    unfold containerMalloc
    rw [h]
    dsimp only
    simp only [wp_bind, wp_gets, wp_modify, wp_panicIf]
    refine ⟨fun hfull => absurd hroom (Nat.not_lt.mpr hfull), fun _ => wp_onMem_kalloc ?_⟩
    unfold Kernel.mapped Kernel.setGuest
    simp
  obtain ⟨_, k', hrun, rfl⟩ := exists_of_wp hwp
  exact hrun

theorem containerMalloc_outside (numBytes pid : Int) (h : entry cid = some id)
    (hfull : NPAGE ≤ (k.guest id).next) :
    ∃ e k', containerMalloc cid numBytes pid k = (.error e, k') := by
  have hwp : wp (containerMalloc cid numBytes pid) (fun _ _ => False) (fun _ _ => True) k := by
    unfold containerMalloc
    rw [h]
    dsimp only
    simp only [wp_bind, wp_gets, wp_modify, wp_panicIf]
    exact ⟨fun _ => trivial, fun hroom => absurd hfull hroom⟩
  rcases hrun : containerMalloc cid numBytes pid k with ⟨e | r, k'⟩
  · exact ⟨e, k', rfl⟩
  · exact (of_wp_ok hwp hrun).elim

/-- What a step does. -/
theorem step_cases {a : Act} (hstep : step k a = some k') : k.fault = false ∧
    ((k'.guest = k.guest ∧ k'.mem = k.mem ∧ k'.log = k.log ∧ k'.fault = false ∧
        (∀ id, k'.born id = k.born id ∨ k'.born id = k.log.length) ∧
        ∀ cid n pid id, a = .malloc cid n pid → entry cid ≠ some id) ∨
      ∃ cid n pid id, a = .malloc cid n pid ∧ entry cid = some id ∧
        ((NPAGE ≤ (k.guest id).next ∧ k'.fault = true) ∨
          ((k.guest id).next < NPAGE ∧ k' = k.mapped id n pid))) := by
  unfold step at hstep
  split at hstep
  · cases hstep
  · next hfault =>
      have hok : k.fault = false := by simpa using hfault
      refine ⟨hok, ?_⟩
      have hother (hne : ∀ cid n pid, a ≠ .malloc cid n pid) (cid : Int) (n pid : Int) (id : Id)
          (heq : a = .malloc cid n pid) : entry cid ≠ some id := absurd heq (hne cid n pid)
      cases a with
      | create =>
        cases hstep
        refine .inl ?_
        unfold Kernel.create
        split
        · refine ⟨rfl, rfl, rfl, hok, fun id => ?_, hother (by rintro _ _ _ ⟨⟩)⟩
          dsimp only
          unfold Prog.set
          split
          · exact .inr rfl
          · exact .inl rfl
        · exact ⟨rfl, rfl, rfl, hok, fun id => .inl rfl, hother (by rintro _ _ _ ⟨⟩)⟩
      | clear id =>
        cases hstep
        exact .inl ⟨rfl, rfl, rfl, hok, fun id => .inl rfl, hother (by rintro _ _ _ ⟨⟩)⟩
      | destroy id =>
        cases hstep
        exact .inl ⟨rfl, rfl, rfl, hok, fun id => .inl rfl, hother (by rintro _ _ _ ⟨⟩)⟩
      | malloc cid n pid =>
        dsimp only at hstep
        cases hentry : entry cid with
        | none =>
          rw [containerMalloc_none hentry] at hstep
          cases hstep
          refine .inl ⟨rfl, rfl, rfl, hok, fun id => .inl rfl, fun c m q id heq => ?_⟩
          cases heq
          rw [hentry]
          exact (Option.some_ne_none id).symm
        | some id =>
          refine .inr ⟨cid, n, pid, id, rfl, hentry, ?_⟩
          rcases Nat.lt_or_ge (k.guest id).next NPAGE with hroom | hfull
          · rw [containerMalloc_some hentry hroom] at hstep
            cases hstep
            exact .inr ⟨hroom, rfl⟩
          · obtain ⟨e, k'', hrun⟩ := containerMalloc_outside n pid hentry hfull
            rw [hrun] at hstep
            cases hstep
            exact .inl ⟨hfull, rfl⟩

end Call

/-! ### Every run -/

/-- The pages of `kalloc` are those that are free and those that the log names,
and the log says what is in the tables. -/
structure Kept (st : Stock) (k : Kernel) : Prop where
  pages : ∃ free, k.mem.FreeList free ∧
    (free ++ (k.log.map Record.hva).filter (· ≠ 0)).Perm st.pages
  next : ∀ id, (k.guest id).next = k.log.countP fun r => r.id = id
  fresh : ∀ id, (∀ r ∈ k.log, r.id ≠ id) → (k.guest id).nextGVA = 0
  entries : ∀ r ∈ k.log, r.index < NPAGE ∧ r.index < (k.guest r.id).next ∧
    ((k.guest r.id).page r.index).gva = r.gva ∧ ((k.guest r.id).page r.index).hva = r.hva

section Runs

variable {st : Stock} {k k' : Kernel} {a : Act} {id : Id} {n pid : Int}

theorem Kept.boot {mem : Mem} (h : mem.FreeList st.pages) : Kept st (boot mem) where
  pages := by
    refine ⟨st.pages, h, ?_⟩
    change (st.pages ++ []).Perm st.pages
    rw [List.append_nil]
  next id := rfl
  fresh id _ := rfl
  entries := nofun

theorem Kernel.mapped_guest (k : Kernel) (id : Id) (n pid : Int) : (k.mapped id n pid).guest id =
    { nextGVA := int ((k.guest id).nextGVA + n)
      next := (k.guest id).next + 1
      page := set (k.guest id).page (k.guest id).next
        ⟨(k.guest id).nextGVA, k.mem.freelist, pid⟩ } :=
  set_self ..

theorem Kernel.mapped_guest_of_ne (k : Kernel) {id j : Id} (n pid : Int) (h : j ≠ id) :
    (k.mapped id n pid).guest j = k.guest j := set_of_ne _ _ h

theorem Kept.taken (h : Kept st k) (r : Record) (hr : r.hva = k.mem.freelist) :
    ∃ free, (Memory.taken k.mem).FreeList free ∧
      (free ++ ((k.log ++ [r]).map Record.hva).filter (· ≠ 0)).Perm st.pages := by
  obtain ⟨free, hlist, hperm⟩ := h.pages
  rw [List.map_append, List.filter_append, List.map_singleton, hr]
  unfold Memory.taken
  cases free with
  | nil =>
    have hzero : k.mem.freelist = 0 := hlist
    rw [if_neg (not_not.mpr hzero), hzero]
    refine ⟨[], hlist, ?_⟩
    simpa using hperm
  | cons p free =>
    obtain ⟨hp, hrest⟩ := hlist
    have hmem : p ∈ st.pages := hperm.subset List.mem_cons_self
    have hne : p ≠ 0 := Nat.pos_iff_ne_zero.mp (st.isPage p hmem).2.1
    rw [hp, if_pos hne]
    refine ⟨free, hrest, ?_⟩
    rw [List.filter_singleton, decide_eq_true hne, cond_true, ← List.append_assoc]
    exact (List.perm_append_singleton p _).trans hperm

theorem Kept.mapped (h : Kept st k) (hroom : (k.guest id).next < NPAGE) :
    Kept st (k.mapped id n pid) where
  pages := h.taken _ rfl
  next j := by
    change _ = (k.log ++ [_]).countP _
    rw [List.countP_append, List.countP_singleton]
    by_cases hj : j = id
    · subst hj
      rw [Kernel.mapped_guest]
      simp [h.next j]
    · rw [Kernel.mapped_guest_of_ne _ _ _ hj, h.next j]
      simp [Ne.symm hj]
  fresh j hj := by
    have hne : j ≠ id := fun heq =>
      hj _ (List.mem_append_right k.log (List.mem_singleton_self _)) heq.symm
    rw [Kernel.mapped_guest_of_ne _ _ _ hne]
    exact h.fresh j fun r hr => hj r (List.mem_append_left _ hr)
  entries r hr := by
    rcases List.mem_append.mp hr with hr | hr
    · obtain ⟨hlt, hnext, hgva, hhva⟩ := h.entries r hr
      by_cases hj : r.id = id
      · subst hj
        rw [Kernel.mapped_guest]
        dsimp only
        rw [set_of_ne _ _ (Nat.ne_of_lt hnext)]
        exact ⟨hlt, Nat.lt_succ_of_lt hnext, hgva, hhva⟩
      · rw [Kernel.mapped_guest_of_ne _ _ _ hj]
        exact ⟨hlt, hnext, hgva, hhva⟩
    · rw [List.mem_singleton.mp hr]
      dsimp only
      rw [Kernel.mapped_guest]
      dsimp only
      rw [set_self]
      exact ⟨hroom, Nat.lt_succ_self _, rfl, rfl⟩

theorem Kept.congr (h : Kept st k) (hguest : k'.guest = k.guest) (hmem : k'.mem = k.mem)
    (hlog : k'.log = k.log) : Kept st k' where
  pages := by
    rw [hmem, hlog]
    exact h.pages
  next := by
    rw [hguest, hlog]
    exact h.next
  fresh := by
    rw [hguest, hlog]
    exact h.fresh
  entries := by
    rw [hguest, hlog]
    exact h.entries

theorem Kept.step (h : Kept st k) (hstep : step k a = some k') (hok : k'.fault = false) :
    Kept st k' := by
  obtain ⟨-, ⟨hguest, hmem, hlog, -⟩ | ⟨cid, n, pid, id, -, -, ⟨-, hfault⟩ | ⟨hroom, rfl⟩⟩⟩ :=
    step_cases hstep
  · exact h.congr hguest hmem hlog
  · rw [hok] at hfault
    cases hfault
  · exact h.mapped hroom

theorem kept_of_run {mem : Mem} {acts : List Act} (hmem : mem.FreeList st.pages)
    (hrun : exec Memory.step (boot mem) acts = some k) (hok : k.fault = false) : Kept st k := by
  refine exec_invariant (fun k => k.fault = false → Kept st k) (fun _ => Kept.boot hmem)
    (fun k a k' h hstep hok => ?_) hrun hok
  exact (h (step_cases hstep).1).step hstep hok

/-! ### Runs in which every request fits -/

/-- There is a slot and a page, and the page is large enough. -/
def Fits (k : Kernel) : Act → Prop
  | .malloc cid n _ => ∀ id, entry cid = some id →
      (k.guest id).next < NPAGE ∧ 0 ≤ n ∧ n ≤ PGSIZE ∧ k.mem.freelist ≠ 0
  | _ => True

instance (k : Kernel) (a : Act) : Decidable (Fits k a) := by
  cases a <;> unfold Fits <;> infer_instance

/-- Two ranges of guest addresses have nothing in common. -/
def Record.Disjoint (r r' : Record) : Prop :=
  ∀ x, ¬ (r.gva ≤ x ∧ x < r.gva + r.numBytes ∧ r'.gva ≤ x ∧ x < r'.gva + r'.numBytes)

/-- The addresses are given out one after the other. -/
structure Tidy (k : Kernel) : Prop where
  ok : k.fault = false
  bound : ∀ id, 0 ≤ (k.guest id).nextGVA ∧
    (k.guest id).nextGVA ≤ (k.guest id).next * PGSIZE ∧ (k.guest id).next ≤ NPAGE
  sizes : ∀ r ∈ k.log, 0 ≤ r.numBytes ∧ r.numBytes ≤ PGSIZE ∧ r.hva ≠ 0 ∧
    r.gva + r.numBytes ≤ (k.guest r.id).nextGVA
  order : k.log.Pairwise fun r r' => r.id = r'.id → r.gva + r.numBytes ≤ r'.gva

theorem Tidy.boot (mem : Mem) : Tidy (boot mem) where
  ok := rfl
  bound id := by
    have hzero : ((Memory.boot mem).guest id).nextGVA = 0 ∧ ((Memory.boot mem).guest id).next = 0 :=
      ⟨rfl, rfl⟩
    rw [hzero.1, hzero.2, Nat.cast_zero, Int.zero_mul]
    exact ⟨Int.le_refl 0, Int.le_refl 0, Nat.zero_le _⟩
  sizes := nofun
  order := List.Pairwise.nil

theorem Tidy.mapped (h : Tidy k) (hroom : (k.guest id).next < NPAGE) (hn : 0 ≤ n)
    (hsize : n ≤ PGSIZE) (hpage : k.mem.freelist ≠ 0) : Tidy (k.mapped id n pid) := by
  obtain ⟨hlow, hhigh, -⟩ := h.bound id
  have hint : int ((k.guest id).nextGVA + n) = (k.guest id).nextGVA + n := by
    unfold int
    unfold PGSIZE at *
    unfold NPAGE at hroom
    omega
  have hgrow : ∀ j, (k.guest j).nextGVA ≤ ((k.mapped id n pid).guest j).nextGVA := by
    intro j
    by_cases hj : j = id
    · subst hj
      rw [Kernel.mapped_guest]
      dsimp only
      omega
    · rw [Kernel.mapped_guest_of_ne _ _ _ hj]
  refine ⟨h.ok, fun j => ?_, fun r hr => ?_, ?_⟩
  · by_cases hj : j = id
    · subst hj
      rw [Kernel.mapped_guest]
      dsimp only
      rw [hint]
      unfold PGSIZE at *
      push_cast
      omega
    · rw [Kernel.mapped_guest_of_ne _ _ _ hj]
      exact h.bound j
  · rcases List.mem_append.mp hr with hr | hr
    · obtain ⟨hpos, hle, hne, hend⟩ := h.sizes r hr
      exact ⟨hpos, hle, hne, hend.trans (hgrow r.id)⟩
    · rw [List.mem_singleton.mp hr]
      dsimp only
      refine ⟨hn, hsize, hpage, ?_⟩
      rw [Kernel.mapped_guest]
      dsimp only
      rw [hint]
  · refine List.pairwise_append.mpr
      ⟨h.order, List.pairwise_singleton _ _, fun r hr r' hr' heq => ?_⟩
    rw [List.mem_singleton.mp hr'] at heq ⊢
    obtain ⟨-, -, -, hend⟩ := h.sizes r hr
    dsimp only at heq ⊢
    rwa [heq] at hend

theorem Tidy.step (h : Tidy k) (hfits : Fits k a) (hstep : step k a = some k') : Tidy k' := by
  obtain ⟨-, ⟨hguest, -, hlog, hok, -⟩ | ⟨cid, n, pid, id, rfl, hentry, ⟨hfull, -⟩ | ⟨-, rfl⟩⟩⟩ :=
    step_cases hstep
  · refine ⟨hok, ?_, ?_, ?_⟩
    · rw [hguest]
      exact h.bound
    · rw [hguest, hlog]
      exact h.sizes
    · rw [hlog]
      exact h.order
  · exact absurd (hfits id hentry).1 (Nat.not_lt.mpr hfull)
  · obtain ⟨hroom, hn, hsize, hpage⟩ := hfits id hentry
    exact h.mapped hroom hn hsize hpage

end Runs

/-- Every entry is in its table, the ranges of a container since its creation have
nothing in common, and the page of an entry is one that `kalloc` had, is no longer
free, is in no other entry and is large enough. -/
structure Sound (st : Stock) (k : Kernel) : Prop where
  inTable : k.fault = false
  entries : ∀ r ∈ k.log, r.index < NPAGE ∧
    ((k.guest r.id).page r.index).gva = r.gva ∧ ((k.guest r.id).page r.index).hva = r.hva
  disjoint : ∀ id, (k.since id).Pairwise Record.Disjoint
  page : ∃ free, k.mem.FreeList free ∧ ∀ r ∈ k.log, r.hva ≠ 0 ∧ r.hva ∈ st.pages ∧ r.hva ∉ free
  unique : k.log.Pairwise fun r r' => r.hva ≠ r'.hva
  room : ∀ r ∈ k.log, r.numBytes ≤ PGSIZE

theorem Tidy.sound {st : Stock} {k : Kernel} (h : Tidy k) (hkept : Kept st k) : Sound st k := by
  obtain ⟨free, hlist, hperm⟩ := hkept.pages
  have hall : (k.log.map Record.hva).filter (· ≠ 0) = k.log.map Record.hva := by
    rw [List.filter_eq_self]
    intro p hp
    obtain ⟨r, hr, rfl⟩ := List.mem_map.mp hp
    simpa using (h.sizes r hr).2.2.1
  rw [hall] at hperm
  have hnodup := hperm.symm.nodup st.nodup
  obtain ⟨-, hused, hapart⟩ := List.nodup_append.mp hnodup
  refine ⟨h.ok, fun r hr => ?_, fun id => ?_, ⟨free, hlist, fun r hr => ?_⟩, ?_, fun r hr => ?_⟩
  · obtain ⟨hlt, -, hgva, hhva⟩ := hkept.entries r hr
    exact ⟨hlt, hgva, hhva⟩
  · have hsub : (k.since id).Sublist k.log := List.filter_sublist.trans (List.drop_sublist _ _)
    refine (h.order.sublist hsub).imp_of_mem fun {r r'} hr hr' hle x hx => ?_
    have hid : r.id = r'.id := by
      have h₁ := (List.mem_filter.mp hr).2
      have h₂ := (List.mem_filter.mp hr').2
      rw [of_decide_eq_true h₁, of_decide_eq_true h₂]
    have := hle hid
    omega
  · have hmem : r.hva ∈ k.log.map Record.hva := List.mem_map_of_mem hr
    refine ⟨(h.sizes r hr).2.2.1, hperm.subset (List.mem_append_right _ hmem), fun hfree => ?_⟩
    exact hapart _ hfree _ hmem rfl
  · exact List.pairwise_map.mp hused
  · exact (h.sizes r hr).2.1

theorem Sound.fits {st : Stock} {k k' : Kernel} {cid n pid : Int} (h : Sound st k') (hn : 0 ≤ n)
    (hstep : step k (.malloc cid n pid) = some k') : Fits k (.malloc cid n pid) := by
  intro id hentry
  obtain ⟨-, ⟨-, -, -, -, -, hnone⟩ | ⟨_, _, _, j, heq, hj, ⟨-, hfault⟩ | ⟨hroom, rfl⟩⟩⟩ :=
    step_cases hstep
  · exact absurd hentry (hnone cid n pid id rfl)
  · rw [h.inTable] at hfault
    cases hfault
  · cases heq
    obtain rfl : id = j := Option.some.inj (hentry.symm.trans hj)
    have hmem : (⟨id, (k.guest id).next, (k.guest id).nextGVA, n, k.mem.freelist⟩ : Record) ∈
        (k.mapped id n pid).log := List.mem_append_right _ (List.mem_singleton_self _)
    obtain ⟨free, -, hpage⟩ := h.page
    exact ⟨hroom, hn, h.room _ hmem, (hpage _ hmem).1⟩

/-- The mappings are sound after every run of `container_malloc`, `create_container`
and `destroy_container` in which each call finds a slot and a page, and asks for
at least nothing and at most a page. A call for at least nothing that comes next
keeps them so just if it meets these conditions. -/
theorem mappings_sound (st : Stock) (mem : Mem) (hmem : mem.FreeList st.pages) (acts : List Act)
    (k : Kernel) (hfits : AllSteps step Fits (boot mem) acts)
    (hrun : exec step (boot mem) acts = some k) :
    Sound st k ∧ ∀ cid n pid k', 0 ≤ n → step k (.malloc cid n pid) = some k' →
      (Sound st k' ↔ Fits k (.malloc cid n pid)) := by
  have htidy : Tidy k := exec_invariant_of_allSteps Tidy (Tidy.boot mem)
    (fun _ _ _ h hfits hstep => h.step hfits hstep) hfits hrun
  have hkept := kept_of_run hmem hrun htidy.ok
  refine ⟨htidy.sound hkept, fun cid n pid k' hn hstep => ?_⟩
  constructor
  · intro hsound
    exact hsound.fits hn hstep
  · intro hnext
    have htidy' := htidy.step hnext hstep
    exact htidy'.sound (hkept.step hstep htidy'.ok)

/-- Three pages, linked through their first words. -/
def threePages : Mem where
  freelist := 4096
  page p := Bytes.zero.setNum 4 0 (if p = 4096 then 8192 else if p = 8192 then 12288 else 0)

def threeStock : Stock where
  pages := [4096, 8192, 12288]
  nodup := by decide
  isPage := by
    unfold IsPage
    decide

theorem threePages_list : threePages.FreeList threeStock.pages := by
  have hnext : threePages.next 4096 = 8192 ∧ threePages.next 8192 = 12288 ∧
      threePages.next 12288 = 0 := by decide +kernel
  exact ⟨rfl, hnext⟩

/-- A container with two mappings. -/
theorem mappings_sound_two :
    ∃ k, exec step (boot threePages) [.create, .malloc 1 100 5, .malloc 1 4096 5] = some k ∧
      k.log.map Record.hva = [4096, 8192] ∧ Sound threeStock k := by
  obtain ⟨k, hrun, hlog⟩ : ∃ k,
      exec step (boot threePages) [.create, .malloc 1 100 5, .malloc 1 4096 5] = some k ∧
      k.log.map Record.hva = [4096, 8192] := by decide +kernel
  refine ⟨k, hrun, hlog, ?_⟩
  exact (mappings_sound threeStock threePages threePages_list _ k (by decide +kernel) hrun).1

/-- The second call takes the addresses of the first back, and the third gets them
again. -/
theorem mappings_overlap :
    ∃ k, exec step (boot threePages)
        [.create, .malloc 1 100 5, .malloc 1 (-100) 5, .malloc 1 100 5] = some k ∧
      (k.since 1).map (fun r => (r.gva, r.numBytes)) = [(0, 100), (100, -100), (0, 100)] ∧
      ¬ (k.since 1).Pairwise Record.Disjoint := by
  obtain ⟨k, hrun, hsince⟩ : ∃ k, exec step (boot threePages)
        [.create, .malloc 1 100 5, .malloc 1 (-100) 5, .malloc 1 100 5] = some k ∧ k.since 1 =
      [⟨1, 0, 0, 100, 4096⟩, ⟨1, 1, 100, -100, 8192⟩, ⟨1, 2, 0, 100, 12288⟩] := by
    decide +kernel
  refine ⟨k, hrun, by rw [hsince]; rfl, ?_⟩
  rw [hsince]
  intro h
  refine (List.pairwise_cons.mp h).1 ⟨1, 2, 0, 100, 12288⟩ (by simp) 0 ?_
  decide

/-! ### Containers that are created again -/

/-- A call of `container_malloc` by a process of the container. -/
def Act.MallocIn (id : Id) : Act → Prop
  | .malloc cid _ _ => entry cid = some id
  | _ => False

theorem log_iff {mem : Mem} {acts : List Act} {k : Kernel}
    (hrun : exec step (boot mem) acts = some k) (hok : k.fault = false) (id : Id) :
    (∃ r ∈ k.log, r.id = id) ↔ ∃ a ∈ acts, a.MallocIn id := by
  refine exec_history (fun acts k => k.fault = false →
    ((∃ r ∈ k.log, r.id = id) ↔ ∃ a ∈ acts, a.MallocIn id)) (fun _ => by simp [boot])
    (fun acts k a k' h hstep hok => ?_) hrun hok
  have hsplit : (∃ b ∈ acts ++ [a], b.MallocIn id) ↔
      (∃ b ∈ acts, b.MallocIn id) ∨ a.MallocIn id := by
    simp [or_and_right, exists_or]
  obtain ⟨hok', ⟨-, -, hlog, -, -, hnone⟩ | ⟨cid, n, pid, j, rfl, hj, ⟨-, hfault⟩ | ⟨-, rfl⟩⟩⟩ :=
    step_cases hstep
  · have hnot : ¬ a.MallocIn id := by
      cases a with
      | malloc cid n pid => exact hnone cid n pid id rfl
      | create | clear | destroy => exact not_false
    rw [hlog, hsplit, h hok']
    simp [hnot]
  · rw [hok] at hfault
    cases hfault
  · rw [hsplit, ← h hok']
    change (∃ r ∈ k.log ++ [_], r.id = id) ↔ _
    simp only [List.mem_append, List.mem_singleton, or_and_right, exists_or, exists_eq_left]
    refine or_congr_right ?_
    change j = id ↔ entry cid = some id
    rw [hj, Option.some_inj]

/-- After every history, `createContainer` returns a container with an empty table
just if no process of it has called `container_malloc` so far, and after
`destroyContainer` the pages that were obtained for the container since its
creation are on the free list once just if there were none. -/
theorem container_recycled_iff (st : Stock) (mem : Mem) (hmem : mem.FreeList st.pages)
    (acts : List Act) (k : Kernel) (hrun : exec step (boot mem) acts = some k)
    (hok : k.fault = false) :
    (∀ id k', k.create = (some id, k') →
      ((k'.guest id).nextGVA = 0 ∧ (k'.guest id).next = 0 ↔ ∀ a ∈ acts, ¬ a.MallocIn id)) ∧
    ∃ free, free.Nodup ∧ 0 ∉ free ∧ ∀ id, (k.destroy id).mem.FreeList free ∧
      ((∀ r ∈ k.since id, r.hva ≠ 0 → free.count r.hva = 1) ↔ ∀ r ∈ k.since id, r.hva = 0) := by
  have hkept := kept_of_run hmem hrun hok
  constructor
  · intro id k' hcreate
    have hguest : k'.guest = k.guest := by
      unfold Kernel.create at hcreate
      split at hcreate
      · cases hcreate
        rfl
      · cases hcreate
    have hlog := log_iff hrun hok id
    have hnone : (∀ a ∈ acts, ¬ a.MallocIn id) ↔ ∀ r ∈ k.log, r.id ≠ id := by
      rw [← not_iff_not]
      simp only [not_forall, not_not, exists_prop]
      exact hlog.symm
    rw [hguest, hnone]
    constructor
    · rintro ⟨-, hnext⟩ r hr hid
      rw [hkept.next id, List.countP_eq_zero] at hnext
      exact hnext r hr (by simpa using hid)
    · intro hno
      refine ⟨hkept.fresh id hno, ?_⟩
      rw [hkept.next id, List.countP_eq_zero]
      intro r hr
      simpa using hno r hr
  · obtain ⟨free, hlist, hperm⟩ := hkept.pages
    have hnodup := hperm.symm.nodup st.nodup
    obtain ⟨hfree, -, hapart⟩ := List.nodup_append.mp hnodup
    refine ⟨free, hfree, fun hzero => ?_, fun id => ⟨hlist, ?_⟩⟩
    · have := (st.isPage 0 (hperm.subset (List.mem_append_left _ hzero))).2.1
      omega
    · constructor
      · intro hback r hr
        by_contra hne
        have hmem : r ∈ k.log := List.mem_of_mem_drop (List.mem_of_mem_filter hr)
        have hcount : r.hva ∈ free :=
          List.count_pos_iff.mp (by rw [hback r hr hne]; exact Nat.one_pos)
        refine hapart _ hcount _ (List.mem_filter.mpr ⟨List.mem_map_of_mem hmem, ?_⟩) rfl
        simpa using hne
      · intro hzero r hr hne
        exact absurd (hzero r hr) hne

/-- A container that was created and destroyed without a mapping. -/
theorem container_recycled_unused :
    ∃ k id k', exec step (boot threePages) [.create, .destroy 1] = some k ∧
      k.create = (some id, k') ∧ (k'.guest id).nextGVA = 0 ∧ (k'.guest id).next = 0 := by
  obtain ⟨k, hrun, hid, hok⟩ : ∃ k, exec step (boot threePages) [.create, .destroy 1] = some k ∧
      k.create.1 = some 1 ∧ k.fault = false := by decide +kernel
  have hcreate : k.create = (some 1, k.create.2) := by rw [← hid]
  refine ⟨k, 1, _, hrun, hcreate, ?_⟩
  refine ((container_recycled_iff threeStock threePages threePages_list _ k hrun hok).1 1 _
    hcreate).mpr fun a ha => ?_
  rcases List.mem_cons.mp ha with rfl | ha
  · exact not_false
  · rw [List.mem_singleton.mp ha]
    exact not_false

/-- The container is destroyed and created again: the mapping is still there, and
its page is not free. -/
theorem container_keeps_mapping :
    ∃ k, exec step (boot threePages) [.create, .malloc 1 100 5, .destroy 1] = some k ∧
      k.create.1 = some 1 ∧ (k.create.2.guest 1).nextGVA = 100 ∧ (k.create.2.guest 1).next = 1 ∧
      (k.since 1).map Record.hva = [4096] ∧ k.mem.FreeList [8192, 12288] := by
  obtain ⟨k, hrun, hid, hgva, hnext, hsince, hlist⟩ : ∃ k,
      exec step (boot threePages) [.create, .malloc 1 100 5, .destroy 1] = some k ∧
      k.create.1 = some 1 ∧ (k.create.2.guest 1).nextGVA = 100 ∧ (k.create.2.guest 1).next = 1 ∧
      (k.since 1).map Record.hva = [4096] ∧ k.mem.freelist = 8192 ∧ k.mem.next 8192 = 12288 ∧
      k.mem.next 12288 = 0 := by decide +kernel
  exact ⟨k, hrun, hid, hgva, hnext, hsince, hlist⟩

end Xv6.Container.Memory
