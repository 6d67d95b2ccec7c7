import Xv6.Bio.Steps
import Xv6.Log.Store

/-!
What the buffer cache holds while a process works with some of its buffers,
against the plain block store of `Log/Store.lean`: a valid buffer has the
store's contents, a clean one also the disk's, a block without a valid buffer
has the disk's contents, and only clean buffers nobody holds are recycled.
-/

namespace Xv6.Bio

open Prog Log

/-- What holds along the whole run so far. -/
structure History (s : Bio) : Prop where
  seen : ∀ c ∈ s.seen, CacheOk c
  recycled : ∀ x ∈ s.recycled, x.refcnt = 0 ∧ x.dirty = false

/-- What no call on the cache changes, and the process that makes the calls.
`mark` is a point in the list of disk writes. -/
structure Env where
  pid : Nat
  log : Log
  outstanding : Int
  disksize : Nat
  mark : Nat

/-- Buffer `x` against the store `st`. `held` is the block its holder got it
for, and `modified` says that the holder changed the data and has not told the
log or the disk yet. A dirty buffer is in the log header, and its block was
not written since the mark. -/
structure BufOk (e : Env) (st : Store) (held : Option Nat) (modified : Prop) (x : Buf) :
    Prop where
  lock : x.lock = held.map fun _ => e.pid
  refcnt : x.refcnt = if held.isSome then 1 else 0
  unused : x.valid = false → x.dev = 0 ∧ x.blockno = 0 ∧ x.dirty = false ∧ held = none
  place : x.valid = true → x.dev = 1 ∧ x.blockno < e.disksize
  data : x.valid = true → x.data = st.mem x.blockno
  clean : x.valid = true → x.dirty = false → ¬ modified → x.data = st.disk x.blockno
  pinned : x.dirty = true → x.blockno ∈ e.log.lh.entries ∧
    ∀ w ∈ st.writes.drop e.mark, w.1 ≠ x.blockno
  holder : ∀ b, held = some b → x.valid = true ∧ x.blockno = b
  owed : modified → held ≠ none

/-- The cache `s` presents the store `st` to the process. -/
structure Sim (e : Env) (held : Fin NBUF → Option Nat) (mod : Finset (Fin NBUF))
    (st : Store) (s : Bio) : Prop where
  history : History s
  cache : CacheOk s.cache
  buf : ∀ i, BufOk e st (held i) (i ∈ mod) (s.cache.buf i)
  uncached : ∀ b, st.mem b = st.disk b ∨
    ∃ i, (s.cache.buf i).valid = true ∧ (s.cache.buf i).blockno = b
  disk : s.disk = st.disk
  writes : s.writes = st.writes
  log : s.log = e.log
  outstanding : s.outstanding = e.outstanding
  disksize : s.disksize = e.disksize

theorem History.store {s : Bio} (h : History s) {c : Bcache} (hc : CacheOk c) :
    History (s.store c) := by
  refine ⟨?_, h.recycled⟩
  intro c' hmem
  rcases List.mem_append.mp hmem with hold | hnew
  · exact h.seen c' hold
  · rw [List.mem_singleton.mp hnew]
    exact hc

theorem BufOk.of_agree {e e' : Env} {st st' : Store} {held : Option Nat} {m : Prop} {x : Buf}
    (h : BufOk e st held m x) (hpid : e'.pid = e.pid) (hsize : e'.disksize = e.disksize)
    (hlog : ∀ b ∈ e.log.lh.entries, b ∈ e'.log.lh.entries)
    (hwrites : x.valid = true → ∀ w ∈ st'.writes.drop e'.mark,
      w ∈ st.writes.drop e.mark ∨ w.1 ≠ x.blockno)
    (hmem : x.valid = true → st'.mem x.blockno = st.mem x.blockno)
    (hdisk : x.valid = true → st'.disk x.blockno = st.disk x.blockno) :
    BufOk e' st' held m x where
  lock := by rw [hpid]; exact h.lock
  refcnt := h.refcnt
  unused := h.unused
  place := by rw [hsize]; exact h.place
  data hv := by rw [hmem hv]; exact h.data hv
  clean hv hd hm := by rw [hdisk hv]; exact h.clean hv hd hm
  pinned hd := by
    have hv : x.valid = true := by
      by_contra hv
      have := (h.unused (by simpa using hv)).2.2.1
      rw [hd] at this
      contradiction
    refine ⟨hlog _ (h.pinned hd).1, fun w hw => ?_⟩
    exact (hwrites hv w hw).elim ((h.pinned hd).2 w) id
  holder := h.holder
  owed := h.owed

section

variable {e e' : Env} {held held' : Fin NBUF → Option Nat} {mod mod' : Finset (Fin NBUF)}
  {st st' : Store} {s s' : Bio} {i : Fin NBUF} {b : Nat}

/-- Two valid buffers are for two blocks. -/
theorem Sim.blockno_ne (h : Sim e held mod st s) {j : Fin NBUF} (hij : j ≠ i)
    (hi : (s.cache.buf i).valid = true) (hj : (s.cache.buf j).valid = true) :
    (s.cache.buf j).blockno ≠ (s.cache.buf i).blockno := by
  intro heq
  have hdi := ((h.buf i).place hi).1
  have hdj := ((h.buf j).place hj).1
  exact hij (h.cache.unique j i (by omega) (by omega) heq)

/-- The step of a call that changes buffer `i`, which stays with its block, and
the store at that block only. -/
theorem Sim.step (h : Sim e held mod st s) {x : Buf}
    (hi : (s.cache.buf i).valid = true) (hx : x.valid = true)
    (hcache : s'.cache = s.cache.set i x) (hhist : History s')
    (hdev : x.dev = (s.cache.buf i).dev) (hblock : x.blockno = (s.cache.buf i).blockno)
    (hbuf : BufOk e' st' (held' i) (i ∈ mod') x)
    (hpid : e'.pid = e.pid) (hsize : e'.disksize = e.disksize)
    (hlog : ∀ b ∈ e.log.lh.entries, b ∈ e'.log.lh.entries)
    (hnew : ∀ w ∈ st'.writes.drop e'.mark,
      w ∈ st.writes.drop e.mark ∨ w.1 = (s.cache.buf i).blockno)
    (hheld : ∀ j ≠ i, held' j = held j) (hmod : ∀ j ≠ i, (j ∈ mod' ↔ j ∈ mod))
    (hmem : ∀ b ≠ (s.cache.buf i).blockno, st'.mem b = st.mem b)
    (hdisk : ∀ b ≠ (s.cache.buf i).blockno, st'.disk b = st.disk b)
    (hdiskEq : s'.disk = st'.disk) (hwrites : s'.writes = st'.writes)
    (hlogEq : s'.log = e'.log) (hout : s'.outstanding = e'.outstanding)
    (hsizeEq : s'.disksize = e'.disksize) : Sim e' held' mod' st' s' where
  history := hhist
  cache := by rw [hcache]; exact h.cache.set_same hdev hblock
  buf j := by
    rw [hcache, set_buf]
    by_cases hj : j = i
    · subst hj
      rw [if_pos rfl]
      exact hbuf
    · rw [if_neg hj, hheld j hj, propext (hmod j hj)]
      refine (h.buf j).of_agree hpid hsize hlog ?_ ?_ ?_
      · intro hv w hw
        refine (hnew w hw).imp_right ?_
        intro hwi heq
        exact h.blockno_ne hj hi hv (heq.symm.trans hwi)
      · exact fun hv => hmem _ (h.blockno_ne hj hi hv)
      · exact fun hv => hdisk _ (h.blockno_ne hj hi hv)
  uncached b := by
    by_cases hb : b = (s.cache.buf i).blockno
    · exact Or.inr ⟨i, by simp [hcache, hx], by simp [hcache, hblock, hb]⟩
    · rw [hmem b hb, hdisk b hb]
      refine (h.uncached b).imp_right ?_
      rintro ⟨j, hj, hjb⟩
      have hji : j ≠ i := by
        rintro rfl
        exact hb hjb.symm
      exact ⟨j, by simp [hcache, hji, hj], by simp [hcache, hji, hjb]⟩
  disk := hdiskEq
  writes := hwrites
  log := hlogEq
  outstanding := hout
  disksize := hsizeEq

/-! ### The calls on a buffer the process holds -/

section

variable (h : Sim e held mod st s) (hi : held i = some b)
include h hi

theorem setData_spec (d : Block) :
    wp ((cacheOps e.pid).setData i d)
      (fun _ s' => Sim e held (insert i mod) { st with mem := Function.update st.mem b d } s')
      (fun _ _ => False) s := by
  obtain ⟨hv, hb⟩ := (h.buf i).holder b hi
  have hold := h.buf i
  refine h.step hv (x := { s.cache.buf i with data := d }) hv rfl
    (h.history.store (h.cache.set_same rfl rfl)) rfl rfl ?_ rfl rfl (fun _ hmem => hmem)
    (fun _ hw => Or.inl hw) (fun _ _ => rfl) (fun j hj => by simp [hj]) ?_
    (fun _ _ => rfl) h.disk h.writes h.log
    h.outstanding h.disksize
  · refine ⟨hold.lock, hold.refcnt, hold.unused, hold.place, ?_, ?_, hold.pinned, hold.holder,
      fun _ => by simp [hi]⟩
    · intro _
      simp [hb]
    · intro _ _ hm
      exact absurd (Finset.mem_insert_self _ _) hm
  · intro b' hb'
    rw [hb] at hb'
    exact Function.update_of_ne hb' _ _

theorem data_spec :
    wp ((cacheOps e.pid).data i) (fun d s' => d = st.mem b ∧ s' = s) (fun _ _ => False) s := by
  obtain ⟨hv, hb⟩ := (h.buf i).holder b hi
  refine ⟨?_, rfl⟩
  rw [← hb]
  exact (h.buf i).data hv

theorem bwrite_spec :
    wp (bwrite e.pid i)
      (fun _ s' => Sim e held (mod.erase i)
        { st with
          disk := Function.update st.disk b (st.mem b)
          writes := st.writes ++ [(b, st.mem b)] } s')
      (fun _ _ => False) s := by
  obtain ⟨hv, hb⟩ := (h.buf i).holder b hi
  have hold := h.buf i
  have hlock : (s.cache.buf i).lock = some e.pid := by simp [hold.lock, hi]
  obtain ⟨hdev, hrange⟩ := hold.place hv
  have hdata : (s.cache.buf i).data = st.mem b := hb ▸ hold.data hv
  have hrange' : (s.cache.buf i).blockno < s.disksize := by
    rw [h.disksize]
    exact hrange
  refine wp_mono (wp_bwrite_flushed hlock hdev hrange') ?_ (fun _ _ hf => hf)
  rintro - s' rfl
  refine h.step hv (x := { s.cache.buf i with dirty := false, valid := true }) rfl
    rfl ?_ rfl rfl ?_ rfl rfl (fun _ hmem => hmem) ?_ (fun _ _ => rfl)
    (fun j hj => by simp [hj]) (fun _ _ => rfl) ?_ ?_ ?_ h.log h.outstanding h.disksize
  · apply History.store
    · exact ⟨(h.history.store (h.cache.set_same (x := { s.cache.buf i with dirty := true })
        rfl rfl)).seen, h.history.recycled⟩
    · exact h.cache.set_same rfl rfl
  · refine ⟨hold.lock, hold.refcnt, fun hf => absurd hf (by simp), fun _ => hold.place hv,
      fun _ => hold.data hv, ?_, fun hd => absurd hd (by simp), ?_, fun _ => by simp [hi]⟩
    · intro _ _ _
      simp [hb, hdata]
    · intro b' hb'
      exact ⟨rfl, ((hold.holder b') hb').2⟩
  · intro w hw
    rw [List.drop_append] at hw
    refine (List.mem_append.mp hw).imp_right ?_
    intro hlast
    rw [List.mem_singleton.mp (List.mem_of_mem_drop hlast), hb]
  · intro b' hb'
    rw [hb] at hb'
    exact Function.update_of_ne hb' _ _
  · change Function.update s.disk (s.cache.buf i).blockno (s.cache.buf i).data = _
    rw [h.disk, hb, hdata]
  · change s.writes ++ [((s.cache.buf i).blockno, (s.cache.buf i).data)] = _
    rw [h.writes, hb, hdata]

theorem brelse_spec (hmod : i ∉ mod) :
    wp (brelse e.pid i) (fun _ s' => Sim e (Function.update held i none) mod st s')
      (fun _ _ => False) s := by
  obtain ⟨hv, -⟩ := (h.buf i).holder b hi
  have hold := h.buf i
  have hlock : (s.cache.buf i).lock = some e.pid := by simp [hold.lock, hi]
  have href : (s.cache.buf i).refcnt = 1 := by simp [hold.refcnt, hi]
  let x : Buf := { s.cache.buf i with lock := none, refcnt := 0 }
  refine wp_mono (wp_brelse_released hlock href) ?_ (fun _ _ hf => hf)
  rintro - s' rfl
  have hset : CacheOk (s.cache.set i x) := h.cache.set_same rfl rfl
  have hfront := hset.to_front i
  have hmid : Sim e (Function.update held i none) mod st
      ((s.store (s.cache.set i { s.cache.buf i with lock := none })).store
        (s.cache.set i x)) := by
    refine h.step hv (x := x) hv rfl ?_ rfl rfl ?_ rfl rfl (fun _ hmem => hmem)
      (fun _ hw => Or.inl hw) (fun j hj => Function.update_of_ne hj _ _) (fun _ _ => Iff.rfl)
      (fun _ _ => rfl)
      (fun _ _ => rfl) h.disk h.writes h.log h.outstanding h.disksize
    · refine History.store (h.history.store ?_) hset
      exact h.cache.set_same rfl rfl
    · refine ⟨by simp [x], by simp [x], fun hf => absurd (hf.symm.trans hv) (by simp),
        hold.place, hold.data, hold.clean, hold.pinned, ?_, fun hm => absurd hm hmod⟩
      intro b' hb'
      simp at hb'
  exact ⟨hmid.history.store hfront, hfront, hmid.buf, hmid.uncached, hmid.disk, hmid.writes,
    hmid.log, hmid.outstanding, hmid.disksize⟩

end

/-- The environment after `log_write` of block `b`, with the mark set to `mark`. -/
def Env.absorb (e : Env) (b mark : Nat) : Env :=
  { e with log := { e.log with lh := e.log.lh.absorb b }, mark }

theorem logWrite_spec (h : Sim e held mod st s) (hi : held i = some b)
    (hn : 0 ≤ e.log.lh.n) :
    wp (logWrite i)
      (fun _ s' => Sim (e.absorb b st.writes.length) held (mod.erase i) st s' ∧
        e.log.lh.n < LOGSIZE ∧ e.log.lh.n < (e.log.size : Int) - 1)
      (fun err s' => History s' ∧
        (err = .tooBigTransaction ∨ err = .logWriteOutsideTrans)) s := by
  obtain ⟨hv, hb⟩ := (h.buf i).holder b hi
  have hold := h.buf i
  have hentries := Log.entries_absorb e.log.lh b hn
  have hsub : ∀ c ∈ e.log.lh.entries, c ∈ (e.absorb b st.writes.length).log.lh.entries := by
    intro c hc
    change c ∈ (e.log.lh.absorb b).entries
    rw [hentries]
    split
    · exact hc
    · simp [hc]
  have hmem : b ∈ (e.absorb b st.writes.length).log.lh.entries := by
    change b ∈ (e.log.lh.absorb b).entries
    rw [hentries]
    split
    · assumption
    · simp
  simp only [logWrite, wp_bind, wp_gets]
  apply wp_ite
  · exact fun _ => ⟨h.history, Or.inl rfl⟩
  intro hroom
  apply wp_ite
  · exact fun _ => ⟨h.history, Or.inr rfl⟩
  intro _
  rw [h.log] at hroom
  simp only [wp_bind, wp_getBuf, wp_modify, wp_setBuf]
  refine ⟨?_, by omega, by omega⟩
  refine h.step hv (x := { s.cache.buf i with dirty := true }) hv rfl ?_ rfl rfl ?_ rfl rfl hsub
    (fun w hw => by simp [Env.absorb] at hw) (fun _ _ => rfl) (fun j hj => by simp [hj])
    (fun _ _ => rfl) (fun _ _ => rfl) h.disk h.writes
    ?_ h.outstanding h.disksize
  · apply History.store
    · exact ⟨h.history.seen, h.history.recycled⟩
    · exact h.cache.set_same rfl rfl
  · refine ⟨hold.lock, hold.refcnt, fun hf => absurd (hf.symm.trans hv) (by simp), hold.place,
      hold.data, fun _ hd => absurd hd (by simp), fun _ => ⟨hb ▸ hmem, by simp [Env.absorb]⟩,
      hold.holder, fun _ => by simp [hi]⟩
  · simp [Bio.store, Env.absorb, h.log, hb]

/-! ### Getting a buffer -/

/-- What is left of a call that did not return. -/
def Stopped (why : Fault → Prop) (err : Fault) (s : Bio) : Prop := History s ∧ why err

section

variable (h : Sim e held mod st s)
include h

/-- `bget` finds the buffer of a cached block and locks it. -/
private theorem bget_hit (hfree : ∀ i, held i ≠ some b) (hi : (s.cache.buf i).valid = true)
    (hb : (s.cache.buf i).blockno = b) :
    wp (bget e.pid 1 b) (fun j s' => j = i ∧ Sim e (Function.update held i (some b)) mod st s')
      (fun _ _ => False) s := by
  have hold := h.buf i
  have hdev := (hold.place hi).1
  have hnone : held i = none := by
    cases hheld : held i with
    | none => rfl
    | some c => exact absurd (hheld.trans (by rw [← hb, (hold.holder c hheld).2])) (hfree i)
  let x : Buf := { s.cache.buf i with refcnt := 1, lock := some e.pid }
  have href : (s.cache.buf i).refcnt = 0 := by simp [hold.refcnt, hnone]
  have hlock : (s.cache.buf i).lock = none := by simp [hold.lock, hnone]
  refine wp_mono (h.cache.wp_bget_found (by omega) hdev hb href hlock) ?_ (fun _ _ hf => hf)
  rintro j s' ⟨rfl, rfl⟩
  refine ⟨rfl, ?_⟩
  refine h.step hi (x := x) hi rfl ?_ rfl rfl ?_ rfl rfl (fun _ hmem => hmem)
    (fun _ hw => Or.inl hw) (fun k hk => Function.update_of_ne hk _ _) (fun _ _ => Iff.rfl)
    (fun _ _ => rfl)
    (fun _ _ => rfl) h.disk h.writes h.log h.outstanding h.disksize
  · refine History.store (h.history.store ?_) (h.cache.set_same rfl rfl)
    exact h.cache.set_same rfl rfl
  · refine ⟨by simp [x], by simp [x], fun hf => absurd (hf.symm.trans hi) (by simp), hold.place,
      hold.data, hold.clean, hold.pinned, ?_, fun _ => by simp⟩
    intro c hc
    rw [Function.update_self, Option.some_inj] at hc
    exact ⟨hi, hb.trans hc⟩

private theorem bget_miss {dev : Nat}
    (hnot : ∀ j, ¬ ((s.cache.buf j).dev = dev ∧ (s.cache.buf j).blockno = b)) :
    wp (bget e.pid dev b)
      (fun i s' => held i = none ∧ (s.cache.buf i).dirty = false ∧
        s' = recycle s e.pid dev b i)
      (Stopped (· = .bgetNoBuffers)) s := by
  have hnone (j : Fin NBUF) (href : (s.cache.buf j).refcnt = 0) : held j = none := by
    cases hheld : held j with
    | none => rfl
    | some c => simp [(h.buf j).refcnt, hheld] at href
  refine wp_mono (h.cache.wp_bget_recycle hnot ?_) ?_ ?_
  · intro j href
    simp [(h.buf j).lock, hnone j href]
  · rintro i s' ⟨href, hdirty, hs'⟩
    exact ⟨hnone i href, hdirty, hs'⟩
  · rintro err s' ⟨herr, rfl, -⟩
    exact ⟨h.history, herr⟩

private theorem recycle_history {dev : Nat}
    (hnot : ∀ j, ¬ ((s.cache.buf j).dev = dev ∧ (s.cache.buf j).blockno = b))
    (hnone : held i = none) (hdirty : (s.cache.buf i).dirty = false) :
    History (recycle s e.pid dev b i) := by
  have hrec : History { s with recycled := s.recycled ++ [s.cache.buf i] } := by
    refine ⟨h.history.seen, ?_⟩
    intro x hx
    rcases List.mem_append.mp hx with hold | hnew
    · exact h.history.recycled x hold
    · rw [List.mem_singleton.mp hnew]
      exact ⟨by simp [(h.buf i).refcnt, hnone], hdirty⟩
  exact (hrec.store (h.cache.set_fresh hnot)).store (h.cache.set_fresh hnot)

/-- The recycled buffer, once `iderw` has read the block into it. The block it
leaves was clean, so the store has that block's contents from the disk. -/
private theorem Sim.load (hnot : ∀ j, ¬ ((s.cache.buf j).dev = 1 ∧ (s.cache.buf j).blockno = b))
    (hnone : held i = none) (hdirty : (s.cache.buf i).dirty = false) (hrange : b < e.disksize)
    (hhist : History s') (hcache : s'.cache = s.cache.set i
      { recycledBuf (s.cache.buf i) e.pid 1 b with data := s.disk b, valid := true })
    (hdisk : s'.disk = s.disk) (hwrites : s'.writes = s.writes) (hlog : s'.log = s.log)
    (hout : s'.outstanding = s.outstanding) (hsize : s'.disksize = s.disksize) :
    Sim e (Function.update held i (some b)) mod st s' := by
  have hvalid : ∀ j, (s.cache.buf j).valid = true → (s.cache.buf j).blockno ≠ b :=
    fun j hj hb => hnot j ⟨((h.buf j).place hj).1, hb⟩
  have hmem : st.mem b = st.disk b := by
    rcases h.uncached b with heq | ⟨j, hj, hjb⟩
    · exact heq
    · exact absurd hjb (hvalid j hj)
  have himod : i ∉ mod := fun hm => (h.buf i).owed hm hnone
  refine ⟨hhist, ?_, ?_, ?_, hdisk.trans h.disk, hwrites.trans h.writes, hlog.trans h.log,
    hout.trans h.outstanding, hsize.trans h.disksize⟩
  · rw [hcache]
    exact h.cache.set_fresh hnot
  · intro j
    rw [hcache, set_buf]
    by_cases hj : j = i
    · subst hj
      rw [if_pos rfl]
      refine ⟨by simp [recycledBuf], by simp [recycledBuf], fun hf => absurd hf (by simp),
        fun _ => ⟨rfl, hrange⟩, ?_, ?_, fun hd => absurd hd (by simp [recycledBuf]), ?_,
        fun hm => absurd hm himod⟩
      · intro _
        change s.disk b = st.mem b
        rw [hmem, h.disk]
      · intro _ _ _
        change s.disk b = st.disk b
        rw [h.disk]
      · intro c hc
        rw [Function.update_self, Option.some_inj] at hc
        exact ⟨rfl, hc⟩
    · rw [if_neg hj, Function.update_of_ne hj]
      exact h.buf j
  · intro c
    by_cases hcb : c = b
    · exact Or.inr ⟨i, by simp [hcache], by simp [hcache, recycledBuf, hcb]⟩
    rcases h.uncached c with heq | ⟨j, hj, hjc⟩
    · exact Or.inl heq
    · by_cases hji : j = i
      · subst hji
        left
        rw [← hjc, ← (h.buf j).data hj, (h.buf j).clean hj hdirty himod]
      · exact Or.inr ⟨j, by simp [hcache, hji, hj], by simp [hcache, hji, hjc]⟩

/-- `bread` of a block the process does not hold already. -/
theorem bread_spec (hfree : ∀ i, held i ≠ some b) :
    wp (bread e.pid 1 b)
      (fun i s' => held i = none ∧ Sim e (Function.update held i (some b)) mod st s')
      (Stopped fun err => err = .bgetNoBuffers ∨
        (err = .iderwOutOfRange ∧ e.disksize ≤ b)) s := by
  by_cases hcached : ∃ i, (s.cache.buf i).dev = 1 ∧ (s.cache.buf i).blockno = b
  · obtain ⟨i, hdev, hb⟩ := hcached
    have hv : (s.cache.buf i).valid = true := by
      by_contra hv
      have := ((h.buf i).unused (by simpa using hv)).1
      omega
    have hnone : held i = none := by
      cases hheld : held i with
      | none => rfl
      | some c => exact absurd (hheld.trans (by rw [← hb, ((h.buf i).holder c hheld).2])) (hfree i)
    refine wp_total (bget_hit h hfree hv hb) ?_
    rintro j s' ⟨rfl, hsim⟩
    have hvj := ((hsim.buf j).holder b (by simp)).1
    simp only [wp_bind, wp_getBuf, hvj]
    exact ⟨hnone, hsim⟩
  · have hnot : ∀ j, ¬ ((s.cache.buf j).dev = 1 ∧ (s.cache.buf j).blockno = b) :=
      fun j hj => hcached ⟨j, hj⟩
    refine wp_call (bget_miss h hnot) (fun _ _ hf => ⟨hf.1, Or.inl hf.2⟩) ?_
    rintro i s' ⟨hnone, hdirty, rfl⟩
    have hhist := recycle_history h hnot hnone hdirty
    have hbuf : (recycle s e.pid 1 b i).cache.buf i = recycledBuf (s.cache.buf i) e.pid 1 b := by
      simp [recycle]
    rw [wp_bind, wp_getBuf, hbuf, if_neg (by simp [recycledBuf]), wp_bind,
      wp_iderw_read hbuf rfl rfl rfl, if_neg (by simp [recycledBuf])]
    have hsize : (recycle s e.pid 1 b i).disksize = e.disksize := h.disksize
    by_cases hrange : b < e.disksize
    · rw [if_neg (by simp only [recycledBuf, hsize]; omega)]
      refine ⟨hnone, ?_⟩
      refine h.load hnot hnone hdirty hrange (hhist.store ?_) ?_ rfl rfl rfl rfl rfl
      · simp only [recycle, store_cache, set_set]
        exact h.cache.set_fresh hnot
      · simp only [recycle, store_cache, set_set]
        rfl
    · rw [if_pos (by simp only [recycledBuf, hsize]; omega)]
      exact ⟨hhist, Or.inr ⟨rfl, by omega⟩⟩

/-- Only disk 1 can be read. -/
theorem bread_refused {dev : Nat} (hdev : dev ≠ 1) (hzero : dev ≠ 0 ∨ b ≠ 0) :
    wp (bread e.pid dev b) (fun _ _ => False)
      (Stopped fun err => err = .bgetNoBuffers ∨ err = .iderwNotDisk1) s := by
  have hnot : ∀ j, ¬ ((s.cache.buf j).dev = dev ∧ (s.cache.buf j).blockno = b) := by
    rintro j ⟨hjd, hjb⟩
    cases hv : (s.cache.buf j).valid with
    | true => exact hdev (hjd.symm.trans ((h.buf j).place hv).1)
    | false =>
      obtain ⟨hd0, hb0, -⟩ := (h.buf j).unused hv
      omega
  refine wp_call (bget_miss h hnot) (fun _ _ hf => ⟨hf.1, Or.inl hf.2⟩) ?_
  rintro i s' ⟨hnone, hdirty, rfl⟩
  have hhist := recycle_history h hnot hnone hdirty
  have hbuf : (recycle s e.pid dev b i).cache.buf i =
      recycledBuf (s.cache.buf i) e.pid dev b := by
    simp [recycle]
  rw [wp_bind, wp_getBuf, hbuf, if_neg (by simp [recycledBuf]), wp_bind,
    wp_iderw_read hbuf rfl rfl rfl, if_pos (by simpa [recycledBuf] using hdev)]
  exact ⟨hhist, Or.inr rfl⟩

end

end

end Xv6.Bio
