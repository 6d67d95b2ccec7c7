import Xv6.Bio.Refine

/-!
Whole runs of the buffer cache: whatever sequence of reads, logged writes,
direct writes and commits the file system makes on blocks outside the log,
`bread` returns the latest contents of the block, until a call panics.
-/

namespace Xv6.Bio

open Prog Log WriteSeq

/-- Where the log lies, and the number of blocks of the disk. -/
structure Geometry where
  start : Nat
  size : Nat
  dev : Nat
  disksize : Nat

/-- The block an operation works on. -/
def Op.target : Op → Option (Nat × Nat)
  | .logged dev b _ | .direct dev b _ | .read dev b => some (dev, b)
  | .commit => none

/-- The abstract effect of an operation on the contents of all blocks: what its
`bread` has to return, and the contents afterwards. -/
def Op.effect (m : Nat × Nat → Block) : Op → Option Block × (Nat × Nat → Block)
  | .logged dev b f | .direct dev b f =>
    (some (m (dev, b)), Function.update m (dev, b) (f (m (dev, b))))
  | .read dev b => (some (m (dev, b)), m)
  | .commit => (none, m)

/-- What the `bread`s of a sequence of operations have to return. -/
def latest (m : Nat × Nat → Block) : List (Nat × Op) → List (Option Block)
  | [] => []
  | (_, op) :: ops => (op.effect m).1 :: latest (op.effect m).2 ops

/-- A block of a real device, outside the log. -/
def Allowed (g : Geometry) (op : Op) : Prop :=
  ∀ dev b, op.target = some (dev, b) →
    dev ≠ 0 ∧ (dev = g.dev → ¬ (g.start ≤ b ∧ b < g.start + g.size))

def OnDisk (g : Geometry) (op : Op) : Prop :=
  ∀ dev b, op.target = some (dev, b) → dev = 1 ∧ b < g.disksize

def LogOnDisk (g : Geometry) : Prop := g.dev = 1 ∧ g.start + g.size ≤ g.disksize

/-- The panics of `bget` and `log_write`; and those of the disk driver, when a
block or the log is not on the disk. -/
def Excused (g : Geometry) (ops : List Op) (err : Fault) : Prop :=
  err = .bgetNoBuffers ∨ err = .tooBigTransaction ∨ err = .logWriteOutsideTrans ∨
    (¬ ((∀ op ∈ ops, OnDisk g op) ∧ LogOnDisk g) ∧
      (err = .iderwNotDisk1 ∨ err = .iderwOutOfRange))

/-- The in-memory header between two operations. -/
structure LogOk (lg : Log) (disksize : Nat) : Prop where
  nonneg : 0 ≤ lg.lh.n
  fits : lg.lh.n ≤ LOGSIZE
  room : lg.lh.n = 0 ∨ lg.lh.n ≤ (lg.size : Int) - 1
  distinct : lg.lh.entries.Nodup
  homes : ∀ b ∈ lg.lh.entries, b < disksize ∧ (lg.dev = 1 → ¬ InLog lg b)

/-- Between two operations the cache presents the contents `m`. -/
structure Presents (g : Geometry) (e : Env) (st : Store) (m : Nat × Nat → Block) (s : Bio) :
    Prop where
  sim : Sim e idle ∅ st s
  start : e.log.start = g.start
  size : e.log.size = g.size
  dev : e.log.dev = g.dev
  disksize : e.disksize = g.disksize
  log : LogOk e.log e.disksize
  agree : ∀ b, (g.dev = 1 → ¬ InLog e.log b) → m (1, b) = st.mem b

theorem Sim.with_pid {e : Env} {st : Store} {s : Bio} (h : Sim e idle ∅ st s) (pid : Nat) :
    Sim { e with pid } idle ∅ st s := by
  refine ⟨h.history, h.cache, fun i => ?_, h.uncached, h.disk, h.writes, h.log, h.outstanding,
    h.disksize⟩
  have hi := h.buf i
  exact ⟨hi.lock, hi.refcnt, hi.unused, hi.place, hi.data, hi.clean, hi.pinned, hi.holder, hi.owed⟩

theorem Presents.with_pid {g : Geometry} {e : Env} {st : Store} {m : Nat × Nat → Block} {s : Bio}
    (h : Presents g e st m s) (pid : Nat) : Presents g { e with pid } st m s :=
  ⟨h.sim.with_pid pid, h.start, h.size, h.dev, h.disksize, h.log, h.agree⟩

theorem LogOk.absorb {lg : Log} {disksize b : Nat} (h : LogOk lg disksize)
    (hcap : lg.lh.n < LOGSIZE) (hroom : lg.lh.n < (lg.size : Int) - 1) (hb : b < disksize)
    (hout : lg.dev = 1 → ¬ InLog lg b) :
    LogOk { lg with lh := lg.lh.absorb b } disksize := by
  have hn : lg.lh.n ≤ (lg.lh.absorb b).n ∧ (lg.lh.absorb b).n ≤ lg.lh.n + 1 := by
    simp only [LogHeader.absorb]
    split <;> omega
  have h0 := h.nonneg
  have hentries := Log.entries_absorb lg.lh b h0
  refine ⟨?_, ?_, ?_, ?_, ?_⟩
  · change 0 ≤ (lg.lh.absorb b).n
    omega
  · change (lg.lh.absorb b).n ≤ LOGSIZE
    omega
  · change (lg.lh.absorb b).n = 0 ∨ (lg.lh.absorb b).n ≤ (lg.size : Int) - 1
    omega
  · change (lg.lh.absorb b).entries.Nodup
    rw [hentries]
    split
    · exact h.distinct
    · next hnew => simpa using h.distinct.concat hnew
  · intro c hc
    change c ∈ (lg.lh.absorb b).entries at hc
    rw [hentries] at hc
    split at hc
    · exact h.homes c hc
    · rcases List.mem_append.mp hc with hold | hnew
      · exact h.homes c hold
      · rw [List.mem_singleton.mp hnew]
        exact ⟨hb, hout⟩

theorem LogOk.transaction {lg : Log} {disksize : Nat} (h : LogOk lg disksize)
    (hpos : 0 < lg.lh.n) (hdev : lg.dev = 1) (hsize : disksize < 2 ^ 31) : Transaction lg := by
  have hmem : ∀ t < lg.lh.n.toNat, lg.lh.block t ∈ lg.lh.entries :=
    fun t ht => List.mem_map_of_mem (List.mem_range.mpr ht)
  refine ⟨by omega, h.room.resolve_left (by omega), h.fits, ?_, ?_, ?_⟩
  · intro i hi j hj heq
    exact List.inj_on_of_nodup_map h.distinct (List.mem_range.mpr hi) (List.mem_range.mpr hj) heq
  · exact fun t ht => (h.homes _ (hmem t ht)).2 hdev
  · intro t ht
    have := (h.homes _ (hmem t ht)).1
    omega

/-- `commit` changes what `bread` returns inside the log only. -/
theorem commitWrites_outside (lg : Log) (mem : Nat → Block) (h : Transaction lg) {b : Nat}
    (hb : ¬ InLog lg b) : applyWrites mem (commitWrites lg mem) b = mem b := by
  have hsize := h.one_le_size
  rcases applyWrites_eq_or_mem mem (commitWrites lg mem) b with heq | hmem
  · exact heq
  simp only [commitWrites, List.mem_append, List.mem_singleton, Prod.mk.injEq,
    mem_loopWrites] at hmem
  rcases hmem with ((⟨t, ht, hk, -⟩ | ⟨hk, -⟩) | ⟨t, ht, hk, hv⟩) | ⟨hk, -⟩
  · exact absurd (hk ▸ slot_inLog h.room ht) hb
  · exact absurd (hk ▸ start_inLog hsize) hb
  · exact hv.symm.trans (by rw [hk])
  · exact absurd (hk ▸ start_inLog hsize) hb

section Steps

variable {g : Geometry} {e : Env} {st : Store} {m : Nat × Nat → Block} {s : Bio}

/-- After an operation that got a result: the right one, and the cache presents
the contents the operation leaves. -/
def After (g : Geometry) (m : Nat × Nat → Block) (op : Op) (r : Option Block) (s : Bio) : Prop :=
  r = (op.effect m).1 ∧ ∃ e st, Presents g e st (op.effect m).2 s

variable {dev b : Nat}

/-- The first steps of every operation on a block: `bread` and the read of the
data. The rest `k` runs with the buffer held. -/
private theorem read_block {op : Op} {k : Fin NBUF → Block → BioM (Option Block)}
    (h : Presents g e st m s) (hok : Allowed g op) (htarget : op.target = some (dev, b))
    (hk : ∀ i s', dev = 1 → b < e.disksize → (g.dev = 1 → ¬ InLog e.log b) →
      Sim e (Function.update idle i (some b)) ∅ st s' →
      wp (k i (m (dev, b))) (After g m op) (Stopped (Excused g [op])) s') :
    wp (do
        let i ← bread e.pid dev b
        let d ← (cacheOps e.pid).data i
        k i d) (After g m op) (Stopped (Excused g [op])) s := by
  obtain ⟨hdev0, hlog⟩ := hok dev b htarget
  have hoff (hbad : ¬ (dev = 1 ∧ b < e.disksize)) :
      ¬ ((∀ op' ∈ [op], OnDisk g op') ∧ LogOnDisk g) := by
    rintro ⟨hon, -⟩
    apply hbad
    rw [h.disksize]
    exact hon op (by simp) dev b htarget
  by_cases hdev : dev = 1
  · subst hdev
    have hfree : ∀ i, idle i ≠ some b := fun i => by simp [idle]
    refine wp_call (bread_spec h.sim hfree) ?_ ?_
    · rintro err s' ⟨hhist, herr | ⟨herr, hle⟩⟩
      · exact ⟨hhist, Or.inl herr⟩
      · exact ⟨hhist, Or.inr (Or.inr (Or.inr ⟨hoff (by omega), Or.inr herr⟩))⟩
    · rintro i s' ⟨-, h'⟩
      have hi : Function.update idle i (some b) i = some b := by simp
      have hrange : b < e.disksize := by
        have hheld := (h'.buf i).holder b hi
        have hplace := ((h'.buf i).place hheld.1).2
        rwa [hheld.2] at hplace
      have hout : g.dev = 1 → ¬ InLog e.log b := by
        intro hg
        have := hlog hg.symm
        unfold InLog
        rw [h.start, h.size]
        exact this
      refine wp_total (data_spec h' hi) ?_
      rintro d s'' ⟨rfl, rfl⟩
      rw [← h.agree b hout]
      exact hk i s'' rfl hrange hout h'
  · refine wp_stops (bread_refused h.sim hdev (Or.inl hdev0)) ?_
    rintro err s' ⟨hhist, herr | herr⟩
    · exact ⟨hhist, Or.inl herr⟩
    · exact ⟨hhist, Or.inr (Or.inr (Or.inr ⟨hoff (fun hd => hdev hd.1), Or.inl herr⟩))⟩

private theorem update_idle_self (i : Fin NBUF) (b : Nat) :
    Function.update (Function.update idle i (some b)) i none = idle := by
  rw [Function.update_idem]
  exact Function.update_eq_self i idle

private theorem agree_update {d : Block} (h : Presents g e st m s) :
    ∀ c, (g.dev = 1 → ¬ InLog e.log c) →
      Function.update m (1, b) d (1, c) = Function.update st.mem b d c := by
  intro c hc
  by_cases hcb : c = b
  · subst hcb
    simp
  · rw [Function.update_of_ne (by simpa using hcb), Function.update_of_ne hcb]
    exact h.agree c hc

theorem logged_spec {f : Block → Block} (h : Presents g e st m s)
    (hok : Allowed g (.logged dev b f)) :
    wp (runOp e.pid (.logged dev b f)) (After g m (.logged dev b f))
      (Stopped (Excused g [.logged dev b f])) s := by
  refine read_block h hok rfl ?_
  intro i s₁ hdev hrange hout h₁
  subst hdev
  have hi : Function.update idle i (some b) i = some b := by simp
  refine wp_total (setData_spec h₁ hi _) ?_
  intro _ s₂ h₂
  refine wp_call (logWrite_spec h₂ hi h.log.nonneg) ?_ ?_
  · rintro err s' ⟨hhist, herr | herr⟩
    · exact ⟨hhist, Or.inr (Or.inl herr)⟩
    · exact ⟨hhist, Or.inr (Or.inr (Or.inl herr))⟩
  rintro - s₃ ⟨h₃, hcap, hroom⟩
  rw [show (insert i (∅ : Finset (Fin NBUF))).erase i = ∅ by simp] at h₃
  have hrelse := brelse_spec h₃ hi (by simp)
  refine wp_total hrelse ?_
  intro _ s₄ h₄
  rw [update_idle_self] at h₄
  have hagree := agree_update (b := b) (d := f (m (1, b))) h
  refine ⟨rfl, _, _, h₄, h.start, h.size, h.dev, h.disksize, ?_, fun c hc => hagree c hc⟩
  exact h.log.absorb hcap hroom hrange (h.dev ▸ hout)

theorem direct_spec {f : Block → Block} (h : Presents g e st m s)
    (hok : Allowed g (.direct dev b f)) :
    wp (runOp e.pid (.direct dev b f)) (After g m (.direct dev b f))
      (Stopped (Excused g [.direct dev b f])) s := by
  refine read_block h hok rfl ?_
  intro i s₁ hdev _ _ h₁
  subst hdev
  have hi : Function.update idle i (some b) i = some b := by simp
  refine wp_total (setData_spec h₁ hi _) ?_
  intro _ s₂ h₂
  refine wp_total (bwrite_spec h₂ hi) ?_
  intro _ s₃ h₃
  rw [show (insert i (∅ : Finset (Fin NBUF))).erase i = ∅ by simp] at h₃
  refine wp_total (brelse_spec h₃ hi (by simp)) ?_
  intro _ s₄ h₄
  rw [update_idle_self] at h₄
  exact ⟨rfl, _, _, h₄, h.start, h.size, h.dev, h.disksize, h.log, agree_update h⟩

theorem read_spec (h : Presents g e st m s) (hok : Allowed g (.read dev b)) :
    wp (runOp e.pid (.read dev b)) (After g m (.read dev b))
      (Stopped (Excused g [.read dev b])) s := by
  refine read_block h hok rfl ?_
  intro i s₁ _ _ _ h₁
  have hi : Function.update idle i (some b) i = some b := by simp
  refine wp_total (brelse_spec h₁ hi (by simp)) ?_
  intro _ s₂ h₂
  rw [update_idle_self] at h₂
  exact ⟨rfl, _, _, h₂, h.start, h.size, h.dev, h.disksize, h.log, h.agree⟩

/-- The log can be cleared once every block in it was written to its home. -/
private theorem Sim.cleared (h : Sim e idle ∅ st s)
    (hall : ∀ b ∈ e.log.lh.entries, ∃ w ∈ st.writes.drop e.mark, w.1 = b) :
    Sim { e with log := e.log.clear } idle ∅ st { s with log := e.log.clear } := by
  refine ⟨⟨h.history.seen, h.history.recycled⟩, h.cache, fun i => ?_, h.uncached, h.disk,
    h.writes, rfl, h.outstanding, h.disksize⟩
  have hi := h.buf i
  refine ⟨hi.lock, hi.refcnt, hi.unused, hi.place, hi.data, hi.clean, ?_, hi.holder, hi.owed⟩
  intro hdirty
  obtain ⟨hmem, hnot⟩ := hi.pinned hdirty
  obtain ⟨w, hw, hwb⟩ := hall _ hmem
  exact absurd hwb (hnot w hw)

theorem commit_spec (h : Presents g e st m s) (hsize : g.disksize < 2 ^ 31) :
    wp (runOp e.pid .commit) (After g m .commit) (Stopped (Excused g [.commit])) s := by
  simp only [runOp, wp_bind, wp_gets, h.sim.log]
  rcases h.log.nonneg.eq_or_lt with hzero | hpos
  · -- nothing logged: `commit` does nothing
    rw [commit, if_neg (by omega)]
    refine ⟨rfl, e, st, ?_⟩
    change Presents g e st m { s with log := e.log }
    rw [show ({ s with log := e.log } : Bio) = s by rw [← h.sim.log]]
    exact h
  by_cases hdev : e.log.dev = 1
  swap
  · refine wp_mono (commit_refused e.log hpos hdev h.sim) (fun _ _ hf => hf.elim) ?_
    rintro err s' ⟨hhist, herr | herr⟩
    · exact ⟨hhist, Or.inl herr⟩
    · refine ⟨hhist, Or.inr (Or.inr (Or.inr ⟨?_, Or.inl herr⟩))⟩
      rintro ⟨-, hon, -⟩
      exact hdev (h.dev.trans hon)
  have htrans := h.log.transaction hpos hdev (h.disksize ▸ hsize)
  have hhome : ∀ t < e.log.lh.n.toNat, e.log.lh.block t < e.disksize := fun t ht =>
    (h.log.homes _ (List.mem_map_of_mem (List.mem_range.mpr ht))).1
  let off := ¬ e.log.start + e.log.size ≤ e.disksize
  -- from here on the disk writes are counted
  let e₀ : Env := { e with mark := st.writes.length }
  have hsim₀ : Sim e₀ idle ∅ st s := by
    refine ⟨h.sim.history, h.sim.cache, fun i => ?_, h.sim.uncached, h.sim.disk, h.sim.writes,
      h.sim.log, h.sim.outstanding, h.sim.disksize⟩
    refine (h.sim.buf i).of_agree rfl rfl (fun _ hb => hb) ?_ (fun _ => rfl) (fun _ => rfl)
    intro _ w hw
    simp [e₀] at hw
  have hcommit := commit_simulates (e := e₀) e.log htrans hdev hhome
    (fun hon : ¬ off => not_not.mp hon) st s hsim₀
  rw [commit_run e.log st htrans] at hcommit
  refine wp_mono hcommit ?_ ?_
  · rintro lg s' ⟨rfl, hsim⟩
    have hdrop : (st.after (commitWrites e.log st.mem)).writes.drop e₀.mark =
        commitWrites e.log st.mem := by
      simp [Store.after, e₀]
    refine ⟨rfl, { e₀ with log := e.log.clear }, _, hsim.cleared ?_, h.start, h.size, h.dev,
      h.disksize, ?_, ?_⟩
    · intro b hb
      obtain ⟨t, ht, hbt⟩ := List.mem_map.mp hb
      rw [hdrop]
      refine ⟨(e.log.lh.block t, st.mem (e.log.lh.block t)), ?_, hbt⟩
      simp only [commitWrites, List.mem_append, mem_loopWrites]
      exact Or.inl (Or.inr ⟨t, List.mem_range.mp ht, rfl⟩)
    · exact ⟨le_refl _, by simp [LOGSIZE], Or.inl rfl, by simp [LogHeader.entries],
        by simp [LogHeader.entries]⟩
    · intro b hb
      have hout : ¬ InLog e.log b := hb (h.dev.symm.trans hdev)
      change m (1, b) = applyWrites st.mem (commitWrites e.log st.mem) b
      rw [commitWrites_outside e.log st.mem htrans hout]
      exact h.agree b (fun _ => hout)
  · rintro err s' ⟨hhist, herr | ⟨herr, hbad⟩⟩
    · exact ⟨hhist, Or.inl herr⟩
    · refine ⟨hhist, Or.inr (Or.inr (Or.inr ⟨?_, Or.inr herr⟩))⟩
      rintro ⟨-, -, hon⟩
      apply hbad
      rw [h.start, h.size, h.disksize]
      exact hon

theorem runOp_spec (pid : Nat) (op : Op) (h : Presents g e st m s) (hok : Allowed g op)
    (hsize : g.disksize < 2 ^ 31) :
    wp (runOp pid op) (After g m op) (Stopped (Excused g [op])) s := by
  have h' := h.with_pid pid
  generalize he : ({ e with pid } : Env) = e' at h'
  obtain rfl : e'.pid = pid := by rw [← he]
  cases op with
  | logged dev b f => exact logged_spec h' hok
  | direct dev b f => exact direct_spec h' hok
  | read dev b => exact read_spec h' hok
  | commit => exact commit_spec h' hsize

theorem Excused.mono {ops ops' : List Op} {err : Fault} (h : Excused g ops err)
    (hsub : ∀ op ∈ ops, op ∈ ops') : Excused g ops' err := by
  refine h.imp_right (Or.imp_right (Or.imp_right (And.imp_left ?_)))
  intro hbad hon
  exact hbad ⟨fun op hop => hon.1 op (hsub op hop), hon.2⟩

/-- Every run returns the latest contents, or stops at an excused panic. -/
theorem run_spec (ops : List (Nat × Op)) (h : Presents g e st m s)
    (hok : ∀ p ∈ ops, Allowed g p.2) (hsize : g.disksize < 2 ^ 31) :
    wp (run ops) (fun reads s' => reads = latest m ops ∧ History s')
      (Stopped (Excused g (ops.map Prod.snd))) s := by
  induction ops generalizing e st m s with
  | nil => exact ⟨rfl, h.sim.history⟩
  | cons p ops ih =>
    obtain ⟨pid, op⟩ := p
    refine wp_call (runOp_spec pid op h (hok (pid, op) (by simp)) hsize) ?_ ?_
    · rintro err s' ⟨hhist, herr⟩
      exact ⟨hhist, herr.mono (by simp)⟩
    rintro r s' ⟨rfl, e', st', h'⟩
    refine wp_call (ih h' (fun p hp => hok p (by simp [hp]))) ?_ ?_
    · rintro err s'' ⟨hhist, herr⟩
      exact ⟨hhist, herr.mono (by simp +contextual)⟩
    rintro rs s'' ⟨rfl, hhist⟩
    exact ⟨rfl, hhist⟩

end Steps

/-! ### From the start of the kernel -/

/-- The machine before `binit`: zeroed buffers, any pointers, any disk and an
empty log. -/
def atBoot (g : Geometry) (disk : Nat → Block) (links : Links (Fin NBUF)) (block : Nat → Nat)
    (outstanding : Int) : Bio :=
  { cache := zeroed links
    disk
    disksize := g.disksize
    log := { start := g.start, size := g.size, dev := g.dev, lh := { n := 0, block } }
    outstanding
    writes := []
    seen := []
    recycled := [] }

/-- One more buffer on the list, as in the loop of `binit`. -/
private def binitOne (c : Bcache) (b : Fin NBUF) : Bcache :=
  { c.set b { c.buf b with lock := none } with links := c.links.pushFront b }

/-- The loop of `binit` changes the list only. -/
private theorem binit_loop (bs : List (Fin NBUF)) (c : Bcache)
    (hlock : ∀ b, (c.buf b).lock = none) :
    (bs.foldl binitOne c).links = bs.foldl Links.pushFront c.links ∧
      (bs.foldl binitOne c).buf = c.buf := by
  induction bs generalizing c with
  | nil => exact ⟨rfl, rfl⟩
  | cons b bs ih =>
    have hbuf : (binitOne c b).buf = c.buf := by
      funext i
      change (c.set b { c.buf b with lock := none }).buf i = c.buf i
      rw [set_buf]
      split
      · next heq => subst heq; rw [← hlock i]
      · rfl
    obtain ⟨hlinks, hbuf'⟩ := ih (binitOne c b) (fun d => by rw [hbuf]; exact hlock d)
    exact ⟨hlinks, hbuf'.trans hbuf⟩

theorem binit_spec (g : Geometry) (disk : Nat → Block) (links : Links (Fin NBUF))
    (block : Nat → Nat) (outstanding : Int) :
    wp binit (fun _ s' => ∃ e st, Presents g e st (fun p => disk p.2) s') (fun _ _ => False)
      (atBoot g disk links block outstanding) := by
  let s₀ := atBoot g disk links block outstanding
  obtain ⟨hlinks, hbuf⟩ := binit_loop (List.finRange NBUF)
    { s₀.cache with links := s₀.cache.links.clear } (fun _ => rfl)
  have hring := (Links.isRing_clear s₀.cache.links).pushAll (List.nodup_finRange NBUF)
    (fun _ _ => List.not_mem_nil)
  rw [← hlinks] at hring
  let c := (List.finRange NBUF).foldl binitOne { s₀.cache with links := s₀.cache.links.clear }
  have hc : CacheOk c := by
    refine ⟨?_, _, hring, fun i => by simp⟩
    intro i j hne
    rw [hbuf] at hne
    exact absurd rfl hne
  change ∃ e st, Presents g e st (fun p => disk p.2) (s₀.store c)
  refine ⟨{ pid := 0, log := s₀.log, outstanding, disksize := g.disksize, mark := 0 },
    boot disk, ⟨?_, hc, ?_, fun _ => Or.inl rfl, rfl, rfl, rfl, rfl, rfl⟩, rfl, rfl, rfl, rfl,
    ?_, fun _ _ => rfl⟩
  · refine History.store ⟨?_, ?_⟩ hc
    · exact fun _ hmem => absurd hmem (by simp [s₀, atBoot])
    · exact fun _ hmem => absurd hmem (by simp [s₀, atBoot])
  · intro i
    change BufOk _ _ none _ (c.buf i)
    rw [show c.buf i = (zeroed links).buf i from congrFun hbuf i]
    exact ⟨rfl, rfl, fun _ => ⟨rfl, rfl, rfl, rfl⟩, fun hf => absurd hf (by simp [zeroed]),
      fun hf => absurd hf (by simp [zeroed]), fun hf => absurd hf (by simp [zeroed]),
      fun hf => absurd hf (by simp [zeroed]), fun _ hf => absurd hf (by simp),
      fun hf => absurd hf (by simp)⟩
  · exact ⟨le_refl _, by simp [s₀, atBoot, LOGSIZE], Or.inl rfl,
      by simp [s₀, atBoot, LogHeader.entries], by simp [s₀, atBoot, LogHeader.entries]⟩

/-- The buffer cache refines a plain block store. From the start of the kernel,
every sequence of operations on blocks outside the log either returns from
each `bread` the latest contents of the block, or stops at a panic of `bget` or
`log_write` (or of the disk driver, for a block that is not on its disk). And
at every point of the run there is one buffer per block, the list is a ring
through all buffers, and no dirty or referenced buffer was recycled. -/
theorem cache_refines_store (g : Geometry) (disk : Nat → Block) (links : Links (Fin NBUF))
    (block : Nat → Nat) (outstanding : Int) (ops : List (Nat × Op))
    (hops : ∀ p ∈ ops, Allowed g p.2) (hsize : g.disksize < 2 ^ 31) :
    let final := (do binit; run ops : BioM _) (atBoot g disk links block outstanding)
    (match final.1 with
      | .ok reads => reads = latest (fun p => disk p.2) ops
      | .error err => Excused g (ops.map Prod.snd) err) ∧
    (∀ c ∈ final.2.seen,
      (∀ i j, (c.buf i).dev ≠ 0 → (c.buf i).dev = (c.buf j).dev →
        (c.buf i).blockno = (c.buf j).blockno → i = j) ∧
      ∃ as, c.links.IsRing as ∧ ∀ i, i ∈ as) ∧
    ∀ x ∈ final.2.recycled, x.refcnt = 0 ∧ x.dirty = false := by
  intro final
  have hrun : wp (do binit; run ops : BioM _)
      (fun reads s' => reads = latest (fun p => disk p.2) ops ∧ History s')
      (Stopped (Excused g (ops.map Prod.snd))) (atBoot g disk links block outstanding) := by
    refine wp_total (binit_spec g disk links block outstanding) ?_
    rintro - s' ⟨e, st, h⟩
    exact run_spec ops h hops hsize
  have hhist : History final.2 ∧ (match final.1 with
      | .ok reads => reads = latest (fun p => disk p.2) ops
      | .error err => Excused g (ops.map Prod.snd) err) := by
    rcases hfinal : final with ⟨r, s'⟩
    cases r with
    | ok reads => exact (of_wp_ok hrun hfinal).symm
    | error err =>
      have hstop : Stopped (Excused g (ops.map Prod.snd)) err s' := of_wp_error hrun hfinal
      exact hstop
  refine ⟨hhist.2, ?_, hhist.1.recycled⟩
  intro c hc
  obtain ⟨hunique, hring⟩ := hhist.1.seen c hc
  exact ⟨hunique, hring⟩

/-- A logged write of block 100, its commit, and a read by another process. -/
def writeCommitRead (f : Block → Block) : List (Nat × Op) :=
  [(1, .logged 1 100 f), (1, .commit), (2, .read 1 100)]

/-- A run of these three operations on a zeroed disk ends with a result, and the
second `bread` returns the written contents. -/
theorem cache_refines_store_commit :
    let g : Geometry := { start := 2, size := 30, dev := 1, disksize := 1000 }
    let f : Block → Block := fun b => b.setNum 4 0 7
    let final := (do binit; run (writeCommitRead f) : BioM _)
      (atBoot g (fun _ => Bytes.zero) ⟨id, id⟩ (fun _ => 0) 1)
    final.1.isOk = true ∧
      (match final.1 with
        | .ok reads => reads = [some Bytes.zero, none, some (f Bytes.zero)]
        | .error err => Excused g ((writeCommitRead f).map Prod.snd) err) := by
  intro g f final
  have hallowed : ∀ p ∈ writeCommitRead f, Allowed g p.2 := by
    simp only [writeCommitRead, List.mem_cons, List.not_mem_nil, or_false, forall_eq_or_imp,
      forall_eq]
    refine ⟨?_, ?_, ?_⟩ <;> simp [Allowed, Op.target, g]
  have h := cache_refines_store g (fun _ => Bytes.zero) ⟨id, id⟩ (fun _ => 0) 1
    (writeCommitRead f) hallowed (by decide)
  refine ⟨by decide +kernel, ?_⟩
  have hlatest : latest (fun _ => Bytes.zero) (writeCommitRead f) =
      [some Bytes.zero, none, some (f Bytes.zero)] := by
    simp [latest, writeCommitRead, Op.effect]
  rw [← hlatest]
  exact h.1

end Xv6.Bio
