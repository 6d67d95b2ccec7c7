import Xv6.Bio.Runs

/-!
`commit` at the limit of the cache. A logged block stays in its buffer until
`install_trans` writes it home, so with `LOGSIZE - 1` of them a single buffer
is left. Each round of `commit` takes one buffer for the log block; the other
block it needs is one of those that wait in the cache.
-/

namespace Xv6.Bio

open Prog Log

/-- While `pid` holds the buffers `held`: the dirty buffers are those of the
blocks in `pend`. -/
structure Pinned (pid size : Nat) (held : Fin NBUF → Option Nat) (pend : Finset Nat) (s : Bio) :
    Prop where
  cache : CacheOk s.cache
  disksize : s.disksize = size
  lock : ∀ i, (s.cache.buf i).lock = (held i).map fun _ => pid
  refcnt : ∀ i, (s.cache.buf i).refcnt = if (held i).isSome then 1 else 0
  holder : ∀ i b, held i = some b → (s.cache.buf i).valid = true ∧ (s.cache.buf i).dev = 1 ∧
    (s.cache.buf i).blockno = b ∧ b < size
  dirty : ∀ i, (s.cache.buf i).dirty = true → (s.cache.buf i).valid = true ∧
    (s.cache.buf i).dev = 1 ∧ (s.cache.buf i).blockno ∈ pend
  cached : ∀ b ∈ pend, ∃ i, (s.cache.buf i).dirty = true ∧ (s.cache.buf i).dev = 1 ∧
    (s.cache.buf i).blockno = b

section

variable {pid size b : Nat} {held held' : Fin NBUF → Option Nat} {pend pend' : Finset Nat}
  {s s' : Bio} {i : Fin NBUF}

variable {x : Buf} {lg : Log} {t : Nat}

section

variable (h : Pinned pid size held pend s) (hcache : CacheOk s'.cache)
  (hbuf : ∀ j, s'.cache.buf j = if j = i then x else s.cache.buf j)
  (hsize : s'.disksize = s.disksize) (hheld : ∀ j ≠ i, held' j = held j)
  (hlock : x.lock = (held' i).map fun _ => pid)
  (href : x.refcnt = if (held' i).isSome then 1 else 0)
  (hholder : ∀ b, held' i = some b → x.valid = true ∧ x.dev = 1 ∧ x.blockno = b ∧ b < size)
include h hcache hbuf hsize hheld hlock href hholder

/-- A call that changes buffer `i` only. -/
theorem Pinned.step (hdirty : x.dirty = true → x.valid = true ∧ x.dev = 1 ∧ x.blockno ∈ pend')
    (hpend : ∀ j ≠ i, (s.cache.buf j).dirty = true → (s.cache.buf j).blockno ∈ pend')
    (hcached : ∀ b ∈ pend', b ∈ pend ∧ ((s.cache.buf i).dirty = true → (s.cache.buf i).blockno = b →
      x.dirty = true ∧ x.dev = 1 ∧ x.blockno = b)) :
    Pinned pid size held' pend' s' where
  cache := hcache
  disksize := hsize.trans h.disksize
  lock j := by
    rw [hbuf]
    split
    · next heq => subst heq; exact hlock
    · next hne => rw [hheld j hne]; exact h.lock j
  refcnt j := by
    rw [hbuf]
    split
    · next heq => subst heq; exact href
    · next hne => rw [hheld j hne]; exact h.refcnt j
  holder j c hj := by
    rw [hbuf]
    split
    · next heq => subst heq; exact hholder c hj
    · next hne => exact h.holder j c (hheld j hne ▸ hj)
  dirty j hj := by
    rw [hbuf] at hj ⊢
    split at hj
    · next heq => rw [if_pos heq]; exact hdirty hj
    · next hne =>
        rw [if_neg hne]
        exact ⟨(h.dirty j hj).1, (h.dirty j hj).2.1, hpend j hne hj⟩
  cached c hc := by
    obtain ⟨hold, hkeep⟩ := hcached c hc
    obtain ⟨j, hj, hdev, hblock⟩ := h.cached c hold
    refine ⟨j, ?_⟩
    rw [hbuf]
    split
    · next heq => subst heq; exact hkeep hj hblock
    · exact ⟨hj, hdev, hblock⟩

/-- A call that leaves the block and the flags of buffer `i`. -/
theorem Pinned.step_same (hvalid : (s.cache.buf i).valid = true → x.valid = true)
    (hdirty : x.dirty = (s.cache.buf i).dirty) (hdev : x.dev = (s.cache.buf i).dev)
    (hblock : x.blockno = (s.cache.buf i).blockno) : Pinned pid size held' pend s' := by
  refine h.step hcache hbuf hsize hheld hlock href hholder ?_ (fun j _ hj => (h.dirty j hj).2.2) ?_
  · intro hd
    obtain ⟨hv, hd1, hmem⟩ := h.dirty i (hdirty ▸ hd)
    exact ⟨hvalid hv, hdev.trans hd1, hblock ▸ hmem⟩
  · intro c hc
    refine ⟨hc, fun hd hb => ⟨hdirty.trans hd, ?_, hblock.trans hb⟩⟩
    exact hdev.trans (h.dirty i hd).2.1

end

theorem Pinned.wp_setData (h : Pinned pid size held pend s) (i : Fin NBUF) (d : Block) :
    wp ((cacheOps pid).setData i d) (fun _ s' => Pinned pid size held pend s')
      (fun _ _ => False) s :=
  h.step_same (x := { s.cache.buf i with data := d }) (h.cache.set_same rfl rfl)
    (set_buf _ i · _) rfl (fun _ _ => rfl) (h.lock i) (h.refcnt i) (h.holder i) id rfl rfl rfl

/-- After `bwrite` the block of the buffer does not wait any more. -/
theorem Pinned.wp_bwrite (h : Pinned pid size held pend s) (hi : held i = some b) :
    wp (bwrite pid i) (fun _ s' => Pinned pid size held (pend.erase b) s')
      (fun _ _ => False) s := by
  obtain ⟨hv, hdev, hb, hlt⟩ := h.holder i b hi
  have hlock : (s.cache.buf i).lock = some pid := by rw [h.lock, hi]; rfl
  have hrange : (s.cache.buf i).blockno < s.disksize := by rw [hb, h.disksize]; exact hlt
  refine wp_mono (wp_bwrite_flushed hlock hdev hrange) ?_ (fun _ _ hf => hf)
  rintro - s' rfl
  refine h.step (x := { s.cache.buf i with dirty := false, valid := true })
    (h.cache.set_same rfl rfl) (set_buf _ i · _) rfl (fun _ _ => rfl) (h.lock i) (h.refcnt i) ?_
    (fun hd => nomatch hd) ?_ ?_
  · intro c hc
    exact ⟨rfl, (h.holder i c hc).2⟩
  · intro j hne hj
    obtain ⟨-, hdevj, hmem⟩ := h.dirty j hj
    refine Finset.mem_erase.mpr ⟨fun heq => hne ?_, hmem⟩
    exact h.cache.unique j i (by omega) (by omega) (heq.trans hb.symm)
  · intro c hc
    obtain ⟨hne, hmem⟩ := Finset.mem_erase.mp hc
    exact ⟨hmem, fun _ hc' => absurd (hc'.symm.trans hb) hne⟩

theorem Pinned.wp_brelse (h : Pinned pid size held pend s) (hi : held i = some b) :
    wp (brelse pid i) (fun _ s' => Pinned pid size (Function.update held i none) pend s')
      (fun _ _ => False) s := by
  have hlock : (s.cache.buf i).lock = some pid := by rw [h.lock, hi]; rfl
  have href : (s.cache.buf i).refcnt = 1 := by rw [h.refcnt, hi]; rfl
  refine wp_mono (wp_brelse_released hlock href) ?_ (fun _ _ hf => hf)
  rintro - s' rfl
  have hset : CacheOk (s.cache.set i { s.cache.buf i with lock := none, refcnt := 0 }) :=
    h.cache.set_same rfl rfl
  refine h.step_same (hset.to_front i) (set_buf _ i · _) rfl
    (fun j hj => Function.update_of_ne hj _ _) ?_ ?_ ?_ id rfl rfl rfl
  · rw [Function.update_self]
    rfl
  · rw [Function.update_self]
    rfl
  · intro c hc
    rw [Function.update_self] at hc
    cases hc

/-- With fewer blocks waiting than there are buffers, a buffer is free. -/
theorem Pinned.exists_free (h : Pinned pid size idle pend s) (hroom : pend.card < NBUF) :
    ∃ i, (s.cache.buf i).refcnt = 0 ∧ (s.cache.buf i).dirty = false := by
  by_contra hnone
  have hdirty : ∀ i, (s.cache.buf i).dirty = true := by
    intro i
    by_contra hd
    exact hnone ⟨i, h.refcnt i, by simpa using hd⟩
  have hinj : Set.InjOn (fun i => (s.cache.buf i).blockno) (Finset.univ : Finset (Fin NBUF)) := by
    intro i _ j _ heq
    have hi := (h.dirty i (hdirty i)).2.1
    have hj := (h.dirty j (hdirty j)).2.1
    exact h.cache.unique i j (by omega) (by omega) heq
  have hcard : (Finset.univ : Finset (Fin NBUF)).card ≤ pend.card :=
    Finset.card_le_card_of_injOn _ (fun i _ => (h.dirty i (hdirty i)).2.2) hinj
  rw [Finset.card_univ, Fintype.card_fin] at hcard
  omega

/-- The end of `bread`, after `bget` has locked buffer `i`. -/
private theorem wp_readIn (h : Pinned pid size held pend s) (hcache : CacheOk s'.cache)
    (hnone : held i = none) (hbuf : ∀ j, s'.cache.buf j = if j = i then x else s.cache.buf j)
    (hsize : s'.disksize = s.disksize) (hlt : b < size) (hlock : x.lock = some pid)
    (href : x.refcnt = 1) (hdev : x.dev = 1) (hb : x.blockno = b)
    (hdirty : x.dirty = true → x.valid = true ∧ b ∈ pend)
    (hold : (s.cache.buf i).dirty = true → x.dirty = true ∧ (s.cache.buf i).blockno = b) : wp (do
        let x ← getBuf i
        if x.valid then
          return i
        else do
          iderw pid i
          return i)
      (fun j s'' => held j = none ∧ Pinned pid size (Function.update held j (some b)) pend s'')
      (fun _ _ => False) s' := by
  have hi : s'.cache.buf i = x := by rw [hbuf, if_pos rfl]
  have hpinned (d : Block) (s'' : Bio) (hok : CacheOk s''.cache)
      (hbuf' : ∀ j, s''.cache.buf j =
        if j = i then { x with data := d, valid := true } else s.cache.buf j)
      (hsize' : s''.disksize = s.disksize) :
      Pinned pid size (Function.update held i (some b)) pend s'' := by
    refine h.step hok hbuf' hsize' (fun j hj => Function.update_of_ne hj _ _) ?_ ?_ ?_ ?_
      (fun j _ hj => (h.dirty j hj).2.2) ?_
    · rw [Function.update_self]
      exact hlock
    · rw [Function.update_self]
      exact href
    · intro c hc
      rw [Function.update_self, Option.some_inj] at hc
      exact ⟨rfl, hdev, hb.trans hc, hc ▸ hlt⟩
    · intro hd
      exact ⟨rfl, hdev, hb.symm ▸ (hdirty hd).2⟩
    · intro c hc
      refine ⟨hc, fun hd hc' => ⟨(hold hd).1, hdev, ?_⟩⟩
      exact hb.trans ((hold hd).2.symm.trans hc')
  rw [wp_bind, wp_getBuf, hi]
  refine wp_ite (fun hv => ⟨hnone, ?_⟩) (fun hv => ?_)
  · refine hpinned x.data s' hcache ?_ hsize
    intro j
    rw [hbuf, ← hv]
  · have hv : x.valid = false := by simpa using hv
    have hclean : x.dirty = false := by
      by_contra hd
      rw [(hdirty (by simpa using hd)).1] at hv
      cases hv
    have hrange : s'.disksize = size := hsize.trans h.disksize
    rw [wp_bind, wp_iderw_read hi hlock hv hclean, if_neg (by simp [hdev]), if_neg (by omega)]
    refine ⟨hnone, hpinned (s'.disk x.blockno) _ (hcache.set_same (by rw [hi]) (by rw [hi]))
      ?_ hsize⟩
    intro j
    rw [store_cache, set_buf, hbuf]
    split <;> rfl

/-- `bread` returns if the block waits in the cache, or if nothing is held and
fewer blocks wait than there are buffers. -/
theorem Pinned.wp_bread (h : Pinned pid size held pend s) (hlt : b < size)
    (hfree : ∀ i, held i ≠ some b) (hroom : b ∈ pend ∨ held = idle ∧ pend.card < NBUF) :
    wp (bread pid 1 b)
      (fun i s' => held i = none ∧ Pinned pid size (Function.update held i (some b)) pend s')
      (fun _ _ => False) s := by
  unfold bread
  by_cases hcached : ∃ i, (s.cache.buf i).dev = 1 ∧ (s.cache.buf i).blockno = b
  · obtain ⟨i, hdev, hb⟩ := hcached
    have hnone : held i = none := by
      cases hheld : held i with
      | none => rfl
      | some c => exact absurd (hheld.trans (by rw [← hb, (h.holder i c hheld).2.2.1])) (hfree i)
    have href : (s.cache.buf i).refcnt = 0 := by rw [h.refcnt, hnone]; rfl
    have hlock : (s.cache.buf i).lock = none := by rw [h.lock, hnone]; rfl
    refine wp_seq (h.cache.wp_bget_found (by decide) hdev hb href hlock) ?_
    rintro j s' ⟨rfl, rfl⟩
    refine wp_readIn h (h.cache.set_same rfl rfl) hnone (set_buf _ j · _) rfl hlt rfl rfl hdev hb ?_
      (fun hd => ⟨hd, hb⟩)
    intro hd
    obtain ⟨hv, -, hmem⟩ := h.dirty j hd
    exact ⟨hv, hb ▸ hmem⟩
  · have hnot : ∀ j, ¬ ((s.cache.buf j).dev = 1 ∧ (s.cache.buf j).blockno = b) :=
      fun j hj => hcached ⟨j, hj⟩
    have hpend : b ∉ pend := by
      intro hmem
      obtain ⟨j, -, hj⟩ := h.cached b hmem
      exact hnot j hj
    obtain ⟨rfl, hcard⟩ := hroom.resolve_left hpend
    refine wp_call (h.cache.wp_bget_recycle hnot fun j _ => h.lock j) ?_ ?_
    · rintro _ _ ⟨-, -, hfull⟩
      obtain ⟨i, hi⟩ := h.exists_free hcard
      exact hfull i hi
    · rintro i s' ⟨-, hdirty, rfl⟩
      refine wp_readIn h (x := recycledBuf (s.cache.buf i) pid 1 b)
        (h.cache.set_fresh hnot) rfl ?_ rfl hlt rfl rfl rfl rfl (fun hd => nomatch hd)
        (fun hd => ?_)
      · intro j
        simp only [recycle, store_cache, set_buf]
      · rw [hdirty] at hd
        cases hd

/-- The part that `write_log` and `install_trans` share: copy the held buffer
`i` into the held buffer `j`, write that one and release both. -/
private theorem wp_copy {i j : Fin NBUF} {src dst : Nat} (h : Pinned pid size held pend s)
    (hi : held i = some src) (hj : held j = some dst) (hij : i ≠ j) :
    wp (do
        let d ← (cacheOps pid).data i
        (cacheOps pid).setData j d
        bwrite pid j
        brelse pid i
        brelse pid j)
      (fun _ s' => Pinned pid size (Function.update (Function.update held i none) j none)
        (pend.erase dst) s')
      (fun _ _ => False) s := by
  refine wp_seq (Q := fun _ s' => s' = s) rfl ?_
  rintro d _ rfl
  refine wp_seq (h.wp_setData j d) ?_
  intro _ s₁ h₁
  refine wp_seq (h₁.wp_bwrite hj) ?_
  intro _ s₂ h₂
  refine wp_seq (h₂.wp_brelse hi) ?_
  intro _ s₃ h₃
  have hj' : Function.update held i none j = some dst := by
    rw [Function.update_of_ne hij.symm, hj]
  exact h₃.wp_brelse hj'

section

variable (h : Pinned pid size idle pend s) (hroom : pend.card < NBUF)
include h hroom

/-- Hold a block of the log, and a block that waits in the cache. -/
private theorem wp_readTwo {a : Nat} {α : Type} {f : Fin NBUF → Fin NBUF → BioM α}
    {Q : α → Bio → Prop} (ha : a < size) (hnot : a ∉ pend) (hb : b < size) (hmem : b ∈ pend)
    (hf : ∀ i j s', i ≠ j → Pinned pid size (holding i j a b) pend s' →
      wp (f i j) Q (fun _ _ => False) s') :
    wp (do
        let i ← bread pid 1 a
        let j ← bread pid 1 b
        f i j) Q (fun _ _ => False) s := by
  refine wp_seq (h.wp_bread ha (fun i => by simp [idle]) (Or.inr ⟨rfl, hroom⟩)) ?_
  rintro i s₁ ⟨-, h₁⟩
  refine wp_seq (h₁.wp_bread hb (update_idle_ne fun hab => hnot (hab ▸ hmem)) (Or.inl hmem)) ?_
  rintro j s₂ ⟨hnone, h₂⟩
  refine hf i j s₂ ?_ h₂
  rintro rfl
  simp at hnone

section

variable (hdev : lg.dev = 1) (hslot : slot lg t < size) (hnot : slot lg t ∉ pend)
  (hhome : lg.lh.block t < size) (hmem : lg.lh.block t ∈ pend)
include hdev hslot hnot hhome hmem

theorem Pinned.wp_writeLogOne :
    wp (writeLogOne (cacheOps pid) lg t) (fun _ s' => Pinned pid size idle pend s')
      (fun _ _ => False) s := by
  rw [writeLogOne, hdev]
  refine wp_readTwo h hroom hslot hnot hhome hmem ?_
  intro i j s' hij h'
  refine wp_mono (wp_copy h' holding_right (holding_left hij) hij.symm) ?_ (fun _ _ hf => hf)
  intro _ s'' (h'' : Pinned pid size _ (pend.erase (slot lg t)) s'')
  rwa [Function.update_comm hij.symm, holding_released, Finset.erase_eq_of_notMem hnot] at h''

theorem Pinned.wp_installOne :
    wp (installOne (cacheOps pid) lg t)
      (fun _ s' => Pinned pid size idle (pend.erase (lg.lh.block t)) s')
      (fun _ _ => False) s := by
  rw [installOne, hdev]
  refine wp_readTwo h hroom hslot hnot hhome hmem ?_
  intro i j s' hij h'
  refine wp_mono (wp_copy h' (holding_left hij) holding_right hij) ?_ (fun _ _ hf => hf)
  intro _ s'' h''
  rwa [holding_released] at h''

end

theorem Pinned.wp_writeHead (hdev : lg.dev = 1) (hstart : lg.start < size)
    (hnot : lg.start ∉ pend) :
    wp (writeHead (cacheOps pid) lg) (fun _ s' => Pinned pid size idle pend s')
      (fun _ _ => False) s := by
  rw [writeHead, hdev]
  refine wp_seq (h.wp_bread hstart (fun i => by simp [idle]) (Or.inr ⟨rfl, hroom⟩)) ?_
  rintro i s₁ ⟨-, h₁⟩
  have hi : Function.update idle i (some lg.start) i = some lg.start := by simp
  refine wp_seq (Q := fun _ s' => s' = s₁) rfl ?_
  rintro d _ rfl
  refine wp_seq (h₁.wp_setData i _) ?_
  intro _ s₂ h₂
  refine wp_seq (h₂.wp_bwrite hi) ?_
  intro _ s₃ h₃
  refine wp_mono (h₃.wp_brelse hi) ?_ (fun _ _ hf => hf)
  intro _ s₄ h₄
  rwa [Function.update_idem, show Function.update idle i none = idle from
    Function.update_eq_self i idle, Finset.erase_eq_of_notMem hnot] at h₄

end

/-- An invariant of the loops over the log. -/
private theorem wp_forTail {body : Nat → BioM Unit} (k : Nat) (I : Nat → Bio → Prop) (h0 : I 0 s)
    (hbody : ∀ t s', t < k → I t s' →
      wp (body t) (fun _ s'' => I (t + 1) s'') (fun _ _ => False) s') :
    wp (forTail body k) (fun _ s' => I k s') (fun _ _ => False) s := by
  induction k with
  | zero => exact h0
  | succ k ih =>
    exact wp_seq (ih fun t s' ht => hbody t s' (by omega))
      (fun _ s' hs' => hbody k s' (by omega) hs')

/-- What `commit` finds: the logged blocks wait in dirty buffers, nobody uses a
buffer and no other one is dirty. -/
structure Committable (lg : Log) (s : Bio) : Prop where
  cache : CacheOk s.cache
  unused : ∀ i, (s.cache.buf i).refcnt = 0 ∧ (s.cache.buf i).lock = none
  dev : lg.dev = 1
  size : lg.size = LOGSIZE
  nonneg : 0 ≤ lg.lh.n
  room : lg.lh.n ≤ (lg.size : Int) - 1
  region : lg.start + lg.size ≤ s.disksize
  distinct : lg.lh.entries.Nodup
  homes : ∀ b ∈ lg.lh.entries, b < s.disksize ∧ ¬ InLog lg b
  cached : ∀ b ∈ lg.lh.entries, ∃ i, (s.cache.buf i).valid = true ∧
    (s.cache.buf i).dirty = true ∧ (s.cache.buf i).dev = 1 ∧ (s.cache.buf i).blockno = b
  clean : ∀ i, (s.cache.buf i).dirty = true →
    (s.cache.buf i).dev = 1 ∧ (s.cache.buf i).blockno ∈ lg.lh.entries

theorem Committable.pinned (h : Committable lg s) (pid : Nat) :
    Pinned pid s.disksize idle lg.lh.entries.toFinset s where
  cache := h.cache
  disksize := rfl
  lock i := (h.unused i).2
  refcnt i := (h.unused i).1
  holder _ _ hnone := nomatch hnone
  dirty i hi := by
    obtain ⟨hdev, hmem⟩ := h.clean i hi
    obtain ⟨j, hv, -, hdev', hblock⟩ := h.cached _ hmem
    obtain rfl : j = i := h.cache.unique j i (by omega) (by omega) hblock
    exact ⟨hv, hdev, List.mem_toFinset.mpr hmem⟩
  cached b hb := by
    obtain ⟨i, -, hi⟩ := h.cached b (List.mem_toFinset.mp hb)
    exact ⟨i, hi⟩

/-- The blocks that `install_trans` has not written home after `t` rounds. -/
def remaining (lg : Log) (t : Nat) : Finset Nat := (lg.lh.entries.drop t).toFinset

theorem remaining_succ (hdistinct : lg.lh.entries.Nodup) (ht : t < lg.lh.n.toNat) :
    lg.lh.block t ∈ remaining lg t ∧
      (remaining lg t).erase (lg.lh.block t) = remaining lg (t + 1) := by
  have hlength : t < lg.lh.entries.length := by simpa [LogHeader.entries] using ht
  have hget : lg.lh.entries[t] = lg.lh.block t := by simp [LogHeader.entries]
  have hdrop : lg.lh.entries.drop t = lg.lh.block t :: lg.lh.entries.drop (t + 1) := by
    rw [List.drop_eq_getElem_cons hlength, hget]
  have hnodup : (lg.lh.entries.drop t).Nodup := hdistinct.sublist (List.drop_sublist _ _)
  rw [hdrop, List.nodup_cons] at hnodup
  constructor
  · rw [remaining, hdrop]
    simp
  · rw [remaining, hdrop, List.toFinset_cons, Finset.erase_insert]
    · rfl
    · rw [List.mem_toFinset]
      exact hnodup.1

theorem remaining_subset (lg : Log) (t : Nat) : remaining lg t ⊆ lg.lh.entries.toFinset := by
  intro b hb
  rw [remaining, List.mem_toFinset] at hb
  exact List.mem_toFinset.mpr (List.mem_of_mem_drop hb)

end

/-- At the limit too, `commit` finds a buffer whenever it needs one, never asks
the driver to do nothing, and leaves no buffer dirty. -/
theorem commit_finds_buffers {lg : Log} {s : Bio} (h : Committable lg s) (pid : Nat) :
    wp (Log.commit (cacheOps pid) lg)
      (fun lg' s' => lg'.lh.n = 0 ∧
        ∀ i, (s'.cache.buf i).dirty = false ∧ (s'.cache.buf i).refcnt = 0)
      (fun _ _ => False) s := by
  have hsize := h.size
  have hroom := h.room
  have hregion := h.region
  have hcap : LOGSIZE = 30 := rfl
  have hbufs : NBUF = 30 := rfl
  have hcard (pend : Finset Nat) (hsub : pend ⊆ lg.lh.entries.toFinset) : pend.card < NBUF := by
    have hle := (Finset.card_le_card hsub).trans (List.toFinset_card_le _)
    have hlength : lg.lh.entries.length = lg.lh.n.toNat := by simp [LogHeader.entries]
    omega
  have houtside (b : Nat) (hin : InLog lg b) (pend : Finset Nat)
      (hsub : pend ⊆ lg.lh.entries.toFinset) : b ∉ pend := by
    intro hmem
    exact (h.homes b (List.mem_toFinset.mp (hsub hmem))).2 hin
  have hentry (t : Nat) (ht : t < lg.lh.n.toNat) : lg.lh.block t ∈ lg.lh.entries :=
    List.mem_map_of_mem (List.mem_range.mpr ht)
  have hslot (t : Nat) (ht : t < lg.lh.n.toNat) : slot lg t < s.disksize := by
    unfold slot
    omega
  have hstart : InLog lg lg.start := start_inLog (by omega)
  have hnil : remaining lg lg.lh.n.toNat = ∅ := by
    rw [remaining, List.drop_eq_nil_of_le (by simp [LogHeader.entries])]
    rfl
  unfold commit
  refine wp_ite (fun hpos => ?_) (fun hzero => ?_)
  · refine wp_seq (wp_forTail _ (fun _ s' => Pinned pid s.disksize idle lg.lh.entries.toFinset s')
      (h.pinned pid) ?_) ?_
    · intro t s' ht h'
      exact h'.wp_writeLogOne (hcard _ (Finset.Subset.refl _)) h.dev (hslot t ht)
        (houtside _ (slot_inLog hroom ht) _ (Finset.Subset.refl _)) (h.homes _ (hentry t ht)).1
        (List.mem_toFinset.mpr (hentry t ht))
    intro _ s₁ h₁
    refine wp_seq (h₁.wp_writeHead (hcard _ (Finset.Subset.refl _)) h.dev (by omega)
      (houtside _ hstart _ (Finset.Subset.refl _))) ?_
    intro _ s₂ h₂
    refine wp_seq
      (wp_forTail _ (fun t s' => Pinned pid s.disksize idle (remaining lg t) s') h₂ ?_) ?_
    · intro t s' ht h'
      obtain ⟨hmem, herase⟩ := remaining_succ h.distinct ht
      rw [← herase]
      exact h'.wp_installOne (hcard _ (remaining_subset lg t)) h.dev (hslot t ht)
        (houtside _ (slot_inLog hroom ht) _ (remaining_subset lg t))
        (h.homes _ (hentry t ht)).1 hmem
    intro _ s₃ h₃
    rw [hnil] at h₃
    refine wp_seq (h₃.wp_writeHead (by decide) h.dev (by rw [clear_start]; omega)
      (Finset.notMem_empty _)) ?_
    intro _ s₄ h₄
    refine ⟨rfl, fun i => ⟨?_, h₄.refcnt i⟩⟩
    by_contra hd
    exact absurd (h₄.dirty i (by simpa using hd)).2.2 (Finset.notMem_empty _)
  · have hn : lg.lh.n = 0 := by
      have := h.nonneg
      omega
    refine ⟨hn, fun i => ⟨?_, (h.unused i).1⟩⟩
    by_contra hd
    have hmem := (h.clean i (by simpa using hd)).2
    simp [LogHeader.entries, hn] at hmem

/-- A cache in which all buffers but one wait for the commit. -/
def fullCache : Bio where
  cache :=
    { buf := fun i =>
        { valid := i.val < 29, dirty := i.val < 29, dev := if i.val < 29 then 1 else 0
          blockno := if i.val < 29 then 100 + i.val else 0, lock := none, refcnt := 0
          data := Bytes.zero }
      links := (List.finRange NBUF).foldl Links.pushFront (Links.clear ⟨id, id⟩) }
  disk _ := Bytes.zero
  disksize := 1000
  log := { start := 2, size := LOGSIZE, dev := 1, lh := { n := 29, block := fun t => 100 + t } }
  outstanding := 0
  writes := []
  seen := []
  recycled := []

theorem fullCache_committable : Committable fullCache.log fullCache where
  cache := by
    refine ⟨?_, _, (Links.isRing_clear _).pushAll (List.nodup_finRange NBUF)
      (fun _ _ => List.not_mem_nil), fun i => by simp⟩
    intro i j hne hdev hblock
    simp only [fullCache] at hne hdev hblock
    ext
    split at hblock <;> split at hblock <;> simp_all
  unused _ := ⟨rfl, rfl⟩
  dev := rfl
  size := rfl
  nonneg := by decide
  room := by decide
  region := by decide
  distinct := by decide
  homes := by
    intro b hb
    obtain ⟨t, ht, rfl⟩ := List.mem_map.mp hb
    replace ht : t < 29 := List.mem_range.mp ht
    have hcap : LOGSIZE = 30 := rfl
    simp only [fullCache, InLog]
    omega
  cached := by
    intro b hb
    obtain ⟨t, ht, rfl⟩ := List.mem_map.mp hb
    replace ht : t < 29 := List.mem_range.mp ht
    have hbufs : NBUF = 30 := rfl
    refine ⟨⟨t, by omega⟩, ?_⟩
    simp [fullCache, ht]
  clean := by
    intro i hi
    simp only [fullCache, decide_eq_true_eq] at hi
    simp only [fullCache, if_pos hi, true_and]
    exact List.mem_map.mpr ⟨i.val, List.mem_range.mpr hi, rfl⟩

theorem commit_finds_buffers_full :
    ∃ lg s, Log.commit (cacheOps 1) fullCache.log fullCache = (.ok lg, s) ∧
      ∀ i, (s.cache.buf i).dirty = false := by
  obtain ⟨c, hc⟩ : ∃ c, c = fullCache := ⟨_, rfl⟩
  have hready : Committable c.log c := hc ▸ fullCache_committable
  rw [← hc]
  obtain ⟨lg, s, hrun, -, hclean⟩ := exists_of_wp (commit_finds_buffers hready 1)
  exact ⟨lg, s, hrun, fun i => (hclean i).1⟩

end Xv6.Bio
