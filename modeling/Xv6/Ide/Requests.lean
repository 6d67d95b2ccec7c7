import Xv6.Ide.Queue

/-!
The requests that have arrived are those that were completed and those in the
queue, in this order, and the disk works on the first one in the queue. As in
the kernel, where the buffer cache never has two buffers for one block, the
buffers in use are for different blocks.
-/

namespace Xv6.Ide

open Prog Transition

section Requests

variable {A : Type} {s s' : Driver A} {q : List A} {b b' : A} {p : Nat} {n : Nat} {a : Bool}

/-- Buffers for one block of one drive. -/
def SameBlock (x y : Buf) : Prop := drive x = drive y ∧ x.blockno = y.blockno

instance (x y : Buf) : Decidable (SameBlock x y) := inferInstanceAs (Decidable (_ ∧ _))

/-- The buffer holds what is on the disk. -/
def Agrees (s : Driver A) (x : Buf) : Prop := x.data = s.disk (drive x) x.blockno

/-- The disk works on the request for the buffer. -/
structure InFlight (s : Driver A) (x : Buf) : Prop where
  blockno : x.blockno < Fs.FSSIZE
  dev : s.dev = .busy (command x) ∨ ∃ sector, s.dev = .raised (command x) sector ∧
    sector = s.disk (drive x) x.blockno ∧ (x.dirty = true → x.data = sector)

/-- A process in `iderw`: its request is the `n`-th, and it sleeps only while the
request is not completed. -/
structure Waits (s : Driver A) (p : Nat) (b : A) (n : Nat) (asleep : Bool) : Prop where
  lock : (s.buf b).lock = some p
  blockno : (s.buf b).blockno < Fs.FSSIZE
  request : s.arrived[n]? = some b
  pending : s.completed.length ≤ n → ¬ Synced (s.buf b)
  done : n < s.completed.length → Synced (s.buf b) ∧ asleep = false ∧ Agrees s (s.buf b)

structure Inv (s : Driver A) (q : List A) : Prop where
  queue : Queued s q
  arrived : s.arrived = s.completed ++ q
  started : s.started = s.completed ++ q.take 1
  interrupts : s.interrupts = s.completed.length
  idle : q = [] → s.dev = .idle
  busy : ∀ b, q.head? = some b → InFlight s (s.buf b)
  waits : ∀ p b n a, s.call p = .iderw b n a → Waits s p b n a
  owner : ∀ i b, q[i]? = some b → ∃ p a, s.call p = .iderw b (s.completed.length + i) a
  apart : ∀ p b n a p' b' n' a', s.call p = .iderw b n a → s.call p' = .iderw b' n' a' →
    SameBlock (s.buf b) (s.buf b') → p = p'

theorem Inv.owner_of_mem (h : Inv s q) (hb : b ∈ q) :
    ∃ p n a, s.call p = .iderw b n a ∧ s.completed.length ≤ n := by
  obtain ⟨i, hi⟩ := List.mem_iff_getElem?.mp hb
  obtain ⟨p, a, hp⟩ := h.owner i b hi
  exact ⟨p, _, a, hp, Nat.le_add_right _ _⟩

/-- Nobody but its owner waits for a buffer. -/
theorem Inv.waits_unique {p' n' : Nat} {a' : Bool} (h : Inv s q) (hp : s.call p = .iderw b n a)
    (hp' : s.call p' = .iderw b n' a') : p = p' ∧ n = n' := by
  have hlock := (h.waits p b n a hp).lock
  rw [(h.waits p' b n' a' hp').lock] at hlock
  obtain rfl := Option.some.inj hlock
  rw [hp] at hp'
  cases hp'
  exact ⟨rfl, rfl⟩

/-- The holder of a buffer that is not in `iderw` is the only one to change it. -/
theorem Inv.not_waited (h : Inv s q) (hlock : (s.buf b).lock = some p) (hp : s.call p = .none)
    (p' n : Nat) (a : Bool) : s.call p' ≠ .iderw b n a := by
  intro hp'
  have := (h.waits p' b n a hp').lock
  rw [hlock] at this
  obtain rfl := Option.some.inj this
  rw [hp] at hp'
  cases hp'

theorem Inv.not_mem_of_free (h : Inv s q) (hlock : (s.buf b).lock = some p)
    (hp : s.call p = .none) : b ∉ q := by
  intro hb
  obtain ⟨p', n, a, hp', -⟩ := h.owner_of_mem hb
  exact h.not_waited hlock hp p' n a hp'

theorem set_call_none {f : Nat → Call A} {p' : Nat} (h : set f p .none p' = .iderw b n a) :
    p' ≠ p ∧ f p' = .iderw b n a := by
  have hne : p' ≠ p := by
    rintro rfl
    rw [set_self] at h
    cases h
  rw [set_of_ne _ _ hne] at h
  exact ⟨hne, h⟩

variable {x : Buf} {sector : Block}

theorem InFlight.congr (h : InFlight s x) (hdev : s'.dev = s.dev) (hdisk : s'.disk = s.disk) :
    InFlight s' x := by
  refine ⟨h.blockno, ?_⟩
  rw [hdev, hdisk]
  exact h.dev

theorem Agrees.congr (h : Agrees s x) (hdisk : s'.disk = s.disk) : Agrees s' x := by
  unfold Agrees
  rw [hdisk]
  exact h

/-- Steps that touch neither the queue nor the disk: buffers that nobody waits for
may change, and processes may come and go as long as the requests in the queue keep
theirs. -/
theorem Inv.of_calls (h : Inv s q) (hqueue : s'.idequeue = s.idequeue)
    (hnext : s'.qnext = s.qnext) (hdisk : s'.disk = s.disk) (hdev : s'.dev = s.dev)
    (harrived : s'.arrived = s.arrived) (hstarted : s'.started = s.started)
    (hcompleted : s'.completed = s.completed)
    (hinterrupts : s'.interrupts = s.interrupts)
    (hbuf : ∀ p b n a, s.call p = .iderw b n a → s'.buf b = s.buf b)
    (hwaits : ∀ p b n a, s'.call p = .iderw b n a → ∃ a', s.call p = .iderw b n a' ∧
      (n < s.completed.length → a' = false → a = false))
    (howner : ∀ p b n a, s.call p = .iderw b n a → s.completed.length ≤ n →
      ∃ a', s'.call p = .iderw b n a') : Inv s' q := by
  refine ⟨?_, ?_, ?_, ?_, ?_, ?_, ?_, ?_, ?_⟩
  · exact h.queue.congr hqueue fun b _ => by rw [hnext]
  · rw [harrived, hcompleted]
    exact h.arrived
  · rw [hstarted, hcompleted]
    exact h.started
  · rw [hinterrupts, hcompleted]
    exact h.interrupts
  · rw [hdev]
    exact h.idle
  · intro b hb
    have hmem : b ∈ q := List.mem_of_mem_head? hb
    obtain ⟨p, n, a, hp, -⟩ := h.owner_of_mem hmem
    rw [hbuf p b n a hp]
    exact (h.busy b hb).congr hdev hdisk
  · intro p b n a hp
    obtain ⟨a', hp', hasleep⟩ := hwaits p b n a hp
    have hw := h.waits p b n a' hp'
    have hb := hbuf p b n a' hp'
    refine ⟨?_, ?_, ?_, ?_, ?_⟩
    · rw [hb]
      exact hw.lock
    · rw [hb]
      exact hw.blockno
    · rw [harrived]
      exact hw.request
    · rw [hcompleted, hb]
      exact hw.pending
    · rw [hcompleted, hb]
      intro hn
      obtain ⟨hsync, hawake, hagrees⟩ := hw.done hn
      exact ⟨hsync, hasleep hn hawake, hagrees.congr hdisk⟩
  · intro i b hb
    obtain ⟨p, a, hp⟩ := h.owner i b hb
    rw [hcompleted]
    exact ⟨p, howner p b _ a hp (Nat.le_add_right _ _)⟩
  · intro p b n a p' b' n' a' hp hp'
    obtain ⟨a₀, hp, -⟩ := hwaits p b n a hp
    obtain ⟨a₁, hp', -⟩ := hwaits p' b' n' a' hp'
    rw [hbuf p b n a₀ hp, hbuf p' b' n' a₁ hp']
    exact h.apart p b n a₀ p' b' n' a₁ hp hp'

/-- A process goes to sleep or is woken; it does not sleep when its request is
completed. -/
theorem Inv.setAsleep {a' : Bool} (h : Inv s q) (hp : s.call p = .iderw b n a)
    (ha : n < s.completed.length → a' = false) :
    Inv { s with call := set s.call p (.iderw b n a') } q := by
  refine h.of_calls rfl rfl rfl rfl rfl rfl rfl rfl (fun _ _ _ _ _ => rfl) ?_ ?_
  · intro p₁ b₁ n₁ a₁ hp₁
    by_cases hne : p₁ = p
    · subst hne
      change set s.call p₁ _ p₁ = _ at hp₁
      rw [set_self] at hp₁
      cases hp₁
      exact ⟨a, hp, fun hn _ => ha hn⟩
    · exact ⟨a₁, (set_of_ne _ _ hne).symm.trans hp₁, fun _ h => h⟩
  · intro p₁ b₁ n₁ a₁ hp₁ _
    by_cases hne : p₁ = p
    · subst hne
      rw [hp] at hp₁
      cases hp₁
      exact ⟨a', set_self _ _ _⟩
    · exact ⟨a₁, (set_of_ne _ _ hne).trans hp₁⟩

/-- One round of the wait loop of a process that is in `iderw`. -/
theorem Inv.waitLoop (h : Inv s q) (hp : s.call p = .iderw b n a) : Inv (waitLoop s p b n) q := by
  have hw := h.waits p b n a hp
  unfold Ide.waitLoop
  split_ifs with hsync
  · have hn : n < s.completed.length := by
      by_contra hn
      exact hw.pending (Nat.le_of_not_lt hn) hsync
    refine h.of_calls rfl rfl rfl rfl rfl rfl rfl rfl (fun _ _ _ _ _ => rfl) ?_ ?_
    · intro p' b' n' a' hp'
      obtain ⟨-, hp'⟩ := set_call_none hp'
      exact ⟨a', hp', fun _ h => h⟩
    · intro p' b' n' a' hp' hn'
      have hne : p' ≠ p := by
        rintro rfl
        rw [hp] at hp'
        cases hp'
        omega
      exact ⟨a', (set_of_ne _ _ hne).trans hp'⟩
  · exact h.setAsleep hp (fun hn => absurd (hw.done hn).1 hsync)

theorem waitLoop_panicked : (waitLoop s p b n).panicked = s.panicked := by
  unfold Ide.waitLoop
  split <;> rfl

theorem waitLoop_eq (hsync : ¬ Synced (s.buf b)) :
    waitLoop s p b n = { s with call := set s.call p (.iderw b n true) } := if_neg hsync

theorem idestart_eq (hb : (s.buf b).blockno < Fs.FSSIZE) : s.idestart b = { s with
    dev := .busy (command (s.buf b))
    started := s.started ++ [b] } := by
  unfold Driver.idestart
  rw [if_neg (by omega), if_neg (by decide)]

theorem Inv.arrived_length (h : Inv s q) :
    s.arrived.length = s.completed.length + q.length := by
  rw [h.arrived, List.length_append]

theorem command_data (x : Buf) :
    (command x).data = if x.dirty then some x.data else none := rfl

/-- A write to another block. -/
theorem Agrees.write {y : Buf} {d : Block} (h : Agrees s x) (hne : ¬ SameBlock y x)
    (hdisk : s'.disk = set s.disk (drive y) (set (s.disk (drive y)) y.blockno d)) :
    Agrees s' x := by
  have hsame : s'.disk (drive x) x.blockno = s.disk (drive x) x.blockno := by
    rw [hdisk]
    by_cases hd : drive x = drive y
    · rw [hd, set_self, set_of_ne]
      intro hb
      exact hne ⟨hd.symm, hb.symm⟩
    · rw [set_of_ne _ _ hd]
  unfold Agrees
  rw [hsame]
  exact h

theorem Inv.head_of_dev (h : Inv s q) (hdev : s.dev ≠ .idle) : ∃ b q', q = b :: q' := by
  cases q with
  | nil => exact absurd (h.idle rfl) hdev
  | cons b q' => exact ⟨b, q', rfl⟩

/-- The disk carries out the command of the first request. -/
theorem Inv.of_disk {disk : Bool → Nat → Block} {dev : Dev} (h : Inv s (b :: q))
    (hf : InFlight { s with disk := disk, dev := dev } (s.buf b))
    (hagrees : ∀ x, ¬ SameBlock (s.buf b) x → Agrees s x →
      Agrees { s with disk := disk, dev := dev } x) :
    Inv { s with disk := disk, dev := dev } (b :: q) := by
  refine ⟨h.queue.congr rfl fun _ _ => rfl, h.arrived, h.started, h.interrupts, ?_, ?_, ?_,
    h.owner, h.apart⟩
  · intro hnil
    cases hnil
  · intro b' hb'
    obtain rfl : b = b' := by simpa using hb'
    exact hf
  · intro p b' n a hp
    have hw := h.waits p b' n a hp
    refine ⟨hw.lock, hw.blockno, hw.request, hw.pending, ?_⟩
    intro hn
    obtain ⟨hsync, hawake, hag⟩ := hw.done hn
    refine ⟨hsync, hawake, hagrees _ ?_ hag⟩
    -- the request that is carried out is not completed, so it is another one
    intro hsame
    obtain ⟨p₀, a₀, hp₀⟩ := h.owner 0 b rfl
    obtain rfl := h.apart p₀ b _ a₀ p b' n a hp₀ hp hsame
    rw [hp₀] at hp
    cases hp
    exact absurd hn (Nat.not_lt.mpr (Nat.le_add_right _ _))

theorem Inv.carryOut {c : Cmd} (h : Inv s q) (hdev : s.dev = .busy c) :
    Inv (carryOut s c) q := by
  obtain ⟨b, q', rfl⟩ := h.head_of_dev (by rw [hdev]; simp)
  have hf := h.busy b rfl
  obtain rfl : command (s.buf b) = c := by
    rcases hf.dev with hf | ⟨sector, hf, -⟩
    · rw [hdev] at hf
      cases hf
      rfl
    · rw [hdev] at hf
      cases hf
  have hsector := command_sector hf.blockno
  have hdrive := command_drive (s.buf b)
  have hdata := command_data (s.buf b)
  unfold Ide.carryOut
  by_cases hdirty : (s.buf b).dirty = true
  · rw [if_pos hdirty] at hdata
    simp only [hdata, hsector, hdrive]
    refine h.of_disk ⟨hf.blockno, Or.inr ⟨_, rfl, ?_, fun _ => rfl⟩⟩ ?_
    · simp
    · intro x hne hag
      exact hag.write hne rfl
  · rw [if_neg hdirty] at hdata
    simp only [hdata, hsector, hdrive]
    refine h.of_disk ⟨hf.blockno, Or.inr ⟨_, rfl, rfl, ?_⟩⟩ ?_
    · intro hd
      exact absurd hd hdirty
    · intro x _ hag
      exact hag

/-- A call of `iderw` that passes its tests and that of `idestart`, while the
other buffers in use are for other blocks. -/
structure Proper (s : Driver A) (p : Nat) (b : A) : Prop where
  lock : (s.buf b).lock = some p
  pending : ¬ Synced (s.buf b)
  dev : (s.buf b).dev = 0 ∨ s.havedisk1 = true
  blockno : (s.buf b).blockno < Fs.FSSIZE
  apart : ∀ b', b' ≠ b → (s.buf b').lock ≠ none → ¬ SameBlock (s.buf b') (s.buf b)

/-- What `iderw` does up to its first `sleep`. -/
structure Enqueued (s s' : Driver A) (p : Nat) (b : A) (q : List A) : Prop where
  queue : Queued s' (q ++ [b])
  buf : s'.buf = s.buf
  disk : s'.disk = s.disk
  completed : s'.completed = s.completed
  interrupts : s'.interrupts = s.interrupts
  arrived : s'.arrived = s.arrived ++ [b]
  call : s'.call = set s.call p (.iderw b s.arrived.length true)
  first : q = [] → s'.dev = .busy (command (s.buf b)) ∧ s'.started = s.started ++ [b]
  later : q ≠ [] → s'.dev = s.dev ∧ s'.started = s.started

theorem Inv.iderw (h : Inv s q) (hp : s.call p = .none)
    (hproper : Proper s p b) (he : Enqueued s s' p b q) : Inv s' (q ++ [b]) := by
  have hlen := h.arrived_length
  have hmem := h.not_mem_of_free hproper.lock hp
  have hcall (p' : Nat) (hne : p' ≠ p) : s'.call p' = s.call p' := by
    rw [he.call, set_of_ne _ _ hne]
  have hself : s'.call p = .iderw b s.arrived.length true := by
    rw [he.call, set_self]
  have hlater {p' n' : Nat} {b' : A} {a' : Bool} (hw : Waits s p' b' n' a') :
      Waits s' p' b' n' a' := by
    refine ⟨?_, ?_, ?_, ?_, ?_⟩
    · rw [he.buf]
      exact hw.lock
    · rw [he.buf]
      exact hw.blockno
    · have hlt : n' < s.arrived.length := (List.getElem?_eq_some_iff.mp hw.request).1
      rw [he.arrived, List.getElem?_append_left hlt]
      exact hw.request
    · rw [he.completed, he.buf]
      exact hw.pending
    · rw [he.completed, he.buf]
      intro hn
      obtain ⟨hsync, hawake, hagrees⟩ := hw.done hn
      exact ⟨hsync, hawake, hagrees.congr he.disk⟩
  -- a request in progress is for a buffer that is locked, and for another block
  have hnew {p' n' : Nat} {b' : A} {a' : Bool} (hp' : s.call p' = .iderw b' n' a') :
      ¬ SameBlock (s.buf b') (s.buf b) := by
    refine hproper.apart b' ?_ ?_
    · rintro rfl
      exact h.not_waited hproper.lock hp p' n' a' hp'
    · rw [(h.waits p' b' n' a' hp').lock]
      simp
  refine ⟨he.queue, ?_, ?_, ?_, ?_, ?_, ?_, ?_, ?_⟩
  · rw [he.arrived, he.completed, h.arrived, List.append_assoc]
  · rw [he.completed]
    cases q with
    | nil => rw [(he.first rfl).2, h.started]; simp
    | cons b₀ q => rw [(he.later (by simp)).2, h.started]; simp
  · rw [he.interrupts, he.completed]
    exact h.interrupts
  · intro hnil
    simp at hnil
  · intro b' hb'
    cases q with
    | nil =>
      obtain rfl : b = b' := by simpa using hb'
      rw [he.buf]
      exact ⟨hproper.blockno, Or.inl (he.first rfl).1⟩
    | cons b₀ q =>
      rw [he.buf]
      exact (h.busy b' (by simpa using hb')).congr (he.later (by simp)).1 he.disk
  · intro p' b' n' a' hp'
    by_cases hne : p' = p
    · subst hne
      rw [hself] at hp'
      cases hp'
      refine ⟨?_, ?_, ?_, ?_, ?_⟩
      · rw [he.buf]
        exact hproper.lock
      · rw [he.buf]
        exact hproper.blockno
      · rw [he.arrived]
        simp
      · rw [he.buf]
        intro _
        exact hproper.pending
      · rw [he.completed]
        intro hn
        omega
    · rw [hcall p' hne] at hp'
      exact hlater (h.waits p' b' n' a' hp')
  · intro i b' hb'
    rw [he.completed]
    by_cases hi : i < q.length
    · rw [List.getElem?_append_left hi] at hb'
      obtain ⟨p', a', hp'⟩ := h.owner i b' hb'
      have hne : p' ≠ p := by
        rintro rfl
        rw [hp] at hp'
        cases hp'
      exact ⟨p', a', (hcall p' hne).trans hp'⟩
    · obtain ⟨hlt, hget⟩ := List.getElem?_eq_some_iff.mp hb'
      have hiq : i = q.length := by
        simp at hlt
        omega
      subst hiq
      obtain rfl : b = b' := by simpa using hget
      refine ⟨p, true, ?_⟩
      rw [hself, hlen]
  · intro p₁ b₁ n₁ a₁ p₂ b₂ n₂ a₂ hp₁ hp₂ hsame
    rw [he.buf] at hsame
    by_cases h₁ : p₁ = p
    · subst h₁
      by_contra h₂
      rw [hcall p₂ (Ne.symm h₂)] at hp₂
      rw [hself] at hp₁
      cases hp₁
      exact hnew hp₂ ⟨hsame.1.symm, hsame.2.symm⟩
    · rw [hcall p₁ h₁] at hp₁
      by_cases h₂ : p₂ = p
      · subst h₂
        rw [hself] at hp₂
        cases hp₂
        exact absurd hsame (hnew hp₁)
      · rw [hcall p₂ h₂] at hp₂
        exact h.apart p₁ b₁ n₁ a₁ p₂ b₂ n₂ a₂ hp₁ hp₂ hsame

theorem startNext_of_none (h : s.idequeue = none) : s.startNext = s := by
  unfold Driver.startNext
  rw [h]

theorem startNext_of_some (h : s.idequeue = some b) : s.startNext = s.idestart b := by
  unfold Driver.startNext
  rw [h]

theorem inv_ideinit (buf : A → Buf) (havedisk1 : Bool) (disk : Bool → Nat → Block) :
    Inv (ideinit buf havedisk1 disk) [] := by
  refine ⟨⟨rfl, List.nodup_nil⟩, rfl, rfl, rfl, fun _ => rfl, ?_, ?_, ?_, ?_⟩
  · intro b hb
    cases hb
  · intro p b n a hp
    cases hp
  · intro i b hb
    cases hb
  · intro p b n a p' b' n' a' hp
    cases hp

variable [DecidableEq A]

/-- A buffer that nobody waits for changes. -/
theorem Inv.setBuf (h : Inv s q) (hb : ∀ p n a, s.call p ≠ .iderw b n a) (x : Buf) :
    Inv (s.setBuf b x) q := by
  refine h.of_calls rfl rfl rfl rfl rfl rfl rfl rfl ?_ ?_ ?_
  · intro p b' n a hp
    apply set_of_ne
    rintro rfl
    exact hb p n a hp
  · intro p b' n a hp
    exact ⟨a, hp, fun _ h => h⟩
  · intro p b' n a hp _
    exact ⟨a, hp⟩

theorem startFirst_of_eq (h : s.idequeue = some b) :
    s.startFirst b = ({ s with arrived := s.arrived ++ [b] } : Driver A).idestart b := if_pos h

theorem startFirst_of_ne (h : s.idequeue ≠ some b) :
    s.startFirst b = { s with arrived := s.arrived ++ [b] } := if_neg h

theorem Inv.iderw_enqueued {rounds : Nat} (h : Inv s q) (hp : s.call p = .none)
    (hproper : Proper s p b) (hs : Ide.iderw s p b rounds = some s') :
    Enqueued s s' p b q ∧ s'.panicked = s.panicked := by
  have hdisk1 : ¬ ((s.buf b).dev ≠ 0 ∧ s.havedisk1 = false) := by
    rintro ⟨hne, hfalse⟩
    rcases hproper.dev with hzero | htrue
    · exact hne hzero
    · rw [hfalse] at htrue
      cases htrue
  unfold Ide.iderw at hs
  rw [if_neg (not_not.mpr hproper.lock), if_neg hproper.pending, if_neg hdisk1] at hs
  have hmem := h.not_mem_of_free hproper.lock hp
  have hclear := h.queue.clear hmem
  obtain ⟨pp, hwalk, rfl⟩ := Option.map_eq_some_iff.mp hs
  have hq := hclear.append hmem (set_self _ _ _) hwalk
  rw [walk_eq none hclear.seg] at hwalk
  split_ifs at hwalk
  have hpp := Option.some.inj hwalk
  cases q with
  | nil =>
    obtain rfl : none = pp := hpp
    rw [startFirst_of_eq rfl, idestart_eq (by exact hproper.blockno),
      waitLoop_eq (by exact hproper.pending)]
    refine ⟨⟨hq.congr rfl fun _ _ => rfl, rfl, rfl, rfl, rfl, rfl, rfl, ?_, ?_⟩, rfl⟩
    · intro _
      exact ⟨rfl, rfl⟩
    · intro hne
      exact absurd rfl hne
  | cons b₀ q =>
    have hne : (({ s with qnext := set s.qnext b none } : Driver A).assign pp b).idequeue ≠
        some b := by
      rw [hq.head]
      rintro ⟨⟩
      exact hmem List.mem_cons_self
    obtain ⟨a, rfl⟩ : ∃ a, pp = some a := by
      rw [← hpp]
      simp [List.getLast?_cons]
    rw [startFirst_of_ne hne, waitLoop_eq (by exact hproper.pending)]
    refine ⟨⟨hq.congr rfl fun _ _ => rfl, rfl, rfl, rfl, rfl, rfl, rfl, ?_, ?_⟩, rfl⟩
    · intro hnil
      cases hnil
    · intro _
      exact ⟨rfl, rfl⟩

theorem wake_eq {k : Call A} (h : k.wake b = .iderw b' n a) :
    ∃ a', k = .iderw b' n a' ∧ a = (a' && b' != b) := by
  cases k with
  | none => cases h
  | iderw b₁ n₁ a₁ =>
    cases h
    exact ⟨a₁, rfl, rfl⟩

/-- What `ideintr` does with the first request. -/
structure Completed (s s' : Driver A) (sector : Block) (b : A) (q : List A) : Prop where
  queue : Queued s' q
  self : s'.buf b = synced (s.buf b) sector
  other : ∀ b', b' ≠ b → s'.buf b' = s.buf b'
  disk : s'.disk = s.disk
  arrived : s'.arrived = s.arrived
  completed : s'.completed = s.completed ++ [b]
  interrupts : s'.interrupts = s.interrupts + 1
  call : ∀ p, s'.call p = (s.call p).wake b
  last : q = [] → s'.dev = .idle ∧ s'.started = s.started
  next : ∀ b', q.head? = some b' → s'.dev = .busy (command (s.buf b')) ∧
    s'.started = s.started ++ [b']

theorem ideintr_eq (h : s.idequeue = some b) : ideintr s sector =
    (({ s with dev := .idle, interrupts := s.interrupts + 1 } : Driver A).complete b
      sector).startNext := by
  unfold ideintr
  simp only [h]

theorem Inv.ideintr_completed (h : Inv s (b :: q)) :
    Completed s (ideintr s sector) sector b q ∧ (ideintr s sector).panicked = s.panicked := by
  rw [ideintr_eq h.queue.head]
  generalize hs₁ : ({ s with dev := .idle, interrupts := s.interrupts + 1 } : Driver A).complete b
    sector = s₁
  have hpop : Queued s₁ q := by
    subst hs₁
    exact h.queue.pop rfl rfl
  have hself : s₁.buf b = synced (s.buf b) sector := by
    subst hs₁
    exact set_self _ _ _
  have hother (b' : A) (hne : b' ≠ b) : s₁.buf b' = s.buf b' := by
    subst hs₁
    exact set_of_ne _ _ hne
  have hrest : s₁.disk = s.disk ∧ s₁.arrived = s.arrived ∧ s₁.completed = s.completed ++ [b] ∧
      s₁.interrupts = s.interrupts + 1 ∧ (∀ p, s₁.call p = (s.call p).wake b) ∧ s₁.dev = .idle ∧
      s₁.started = s.started ∧ s₁.panicked = s.panicked := by
    subst hs₁
    exact ⟨rfl, rfl, rfl, rfl, fun _ => rfl, rfl, rfl, rfl⟩
  obtain ⟨hdisk, harrived, hcompleted, hinterrupts, hcall, hdev, hstarted, hpanicked⟩ := hrest
  cases q with
  | nil =>
    rw [startNext_of_none (hpop.nil_iff.mpr rfl)]
    refine ⟨⟨hpop, hself, hother, hdisk, harrived, hcompleted, hinterrupts, hcall, ?_, ?_⟩,
      hpanicked⟩
    · intro _
      exact ⟨hdev, hstarted⟩
    · intro b' hb'
      cases hb'
  | cons b' q =>
    have hne : b' ≠ b := by
      rintro rfl
      exact (List.nodup_cons.mp h.queue.nodup).1 List.mem_cons_self
    obtain ⟨p, n, a, hp, -⟩ := h.owner_of_mem (b := b') (by simp)
    have hblockno : (s₁.buf b').blockno < Fs.FSSIZE := by
      rw [hother b' hne]
      exact (h.waits p b' n a hp).blockno
    rw [startNext_of_some hpop.head, idestart_eq hblockno]
    refine ⟨⟨hpop.congr rfl fun _ _ => rfl, hself, hother, hdisk, harrived, hcompleted,
      hinterrupts, hcall, ?_, ?_⟩, hpanicked⟩
    · intro hnil
      cases hnil
    · intro b'' hb''
      obtain rfl : b' = b'' := by simpa using hb''
      rw [hother b' hne, hstarted]
      exact ⟨rfl, rfl⟩

theorem Completed.block (hc : Completed s s' sector b q) (b' : A) :
    drive (s'.buf b') = drive (s.buf b') ∧ (s'.buf b').blockno = (s.buf b').blockno := by
  by_cases hb : b' = b
  · rw [hb, hc.self]
    exact ⟨rfl, rfl⟩
  · rw [hc.other b' hb]
    exact ⟨rfl, rfl⟩

theorem Inv.ideintr {c : Cmd} (h : Inv s (b :: q)) (hdev : s.dev = .raised c sector)
    (hc : Completed s s' sector b q) : Inv s' q := by
  have hf := h.busy b rfl
  obtain ⟨p, a, hp⟩ := h.owner 0 b rfl
  obtain ⟨hsector, hdirty⟩ : sector = s.disk (drive (s.buf b)) (s.buf b).blockno ∧
      ((s.buf b).dirty = true → (s.buf b).data = sector) := by
    rcases hf.dev with hbusy | ⟨x, hraised, hx⟩
    · rw [hdev] at hbusy
      cases hbusy
    · rw [hdev] at hraised
      cases hraised
      exact hx
  have hdata : (s'.buf b).data = s'.disk (drive (s'.buf b)) (s'.buf b).blockno := by
    rw [hc.self, hc.disk]
    change (if (s.buf b).dirty = true then (s.buf b).data else sector) =
      s.disk (drive (s.buf b)) (s.buf b).blockno
    split_ifs with hd
    · rw [hdirty hd]
      exact hsector
    · exact hsector
  have hnodup := List.nodup_cons.mp h.queue.nodup
  have hlen : s'.completed.length = s.completed.length + 1 := by
    rw [hc.completed, List.length_append]
    rfl
  refine ⟨hc.queue, ?_, ?_, ?_, ?_, ?_, ?_, ?_, ?_⟩
  · rw [hc.arrived, hc.completed, h.arrived]
    simp
  · rw [hc.completed]
    cases q with
    | nil => rw [(hc.last rfl).2, h.started]; simp
    | cons b' q => rw [(hc.next b' rfl).2, h.started]; simp
  · rw [hc.interrupts, hlen, h.interrupts]
  · intro hnil
    exact (hc.last hnil).1
  · intro b' hb'
    have hmem : b' ∈ q := List.mem_of_mem_head? hb'
    have hne : b' ≠ b := by
      rintro rfl
      exact hnodup.1 hmem
    obtain ⟨p', n, a', hp', -⟩ := h.owner_of_mem (List.mem_cons_of_mem b hmem)
    rw [hc.other b' hne]
    exact ⟨(h.waits p' b' n a' hp').blockno, Or.inl (hc.next b' hb').1⟩
  · intro p' b' n a' hp'
    rw [hc.call] at hp'
    obtain ⟨a₀, hp₀, rfl⟩ := wake_eq hp'
    have hw := h.waits p' b' n a₀ hp₀
    by_cases hb : b' = b
    · subst hb
      obtain ⟨-, rfl⟩ := h.waits_unique hp hp₀
      refine ⟨?_, ?_, ?_, ?_, ?_⟩
      · rw [hc.self]
        exact hw.lock
      · rw [hc.self]
        exact hw.blockno
      · rw [hc.arrived]
        exact hw.request
      · rw [hlen]
        intro hn
        omega
      · intro _
        refine ⟨?_, by simp, hdata⟩
        rw [hc.self]
        exact ⟨rfl, rfl⟩
    · have hn : n ≠ s.completed.length := by
        rintro rfl
        have := hw.request
        rw [h.arrived] at this
        simp at this
        exact hb this.symm
      refine ⟨?_, ?_, ?_, ?_, ?_⟩
      · rw [hc.other b' hb]
        exact hw.lock
      · rw [hc.other b' hb]
        exact hw.blockno
      · rw [hc.arrived]
        exact hw.request
      · rw [hc.other b' hb, hlen]
        intro hle
        exact hw.pending (by omega)
      · rw [hc.other b' hb, hlen]
        intro hlt
        obtain ⟨hsync, hawake, hagrees⟩ := hw.done (by omega)
        refine ⟨hsync, ?_, hagrees.congr hc.disk⟩
        rw [hawake]
        rfl
  · intro i b' hb'
    obtain ⟨p', a', hp'⟩ := h.owner (i + 1) b' (by simpa using hb')
    refine ⟨p', a' && b' != b, ?_⟩
    rw [hc.call, hp', hlen]
    simp only [Call.wake, Call.iderw.injEq, true_and, and_true]
    omega
  · intro p₁ b₁ n₁ a₁ p₂ b₂ n₂ a₂ hp₁ hp₂ hsame
    rw [hc.call] at hp₁ hp₂
    obtain ⟨a₃, hp₁, -⟩ := wake_eq hp₁
    obtain ⟨a₄, hp₂, -⟩ := wake_eq hp₂
    refine h.apart p₁ b₁ n₁ a₃ p₂ b₂ n₂ a₄ hp₁ hp₂ ?_
    unfold SameBlock at hsame ⊢
    rwa [(hc.block b₁).1, (hc.block b₁).2, (hc.block b₂).1, (hc.block b₂).2] at hsame

/-- Every call of `iderw` is a proper one. -/
def ProperCall (s : Driver A) : Act A → Prop
  | .iderw p b _ => Proper s p b
  | _ => True

instance [Fintype A] (s : Driver A) (p : Nat) (b : A) : Decidable (Proper s p b) :=
  decidable_of_iff ((s.buf b).lock = some p ∧ ¬ Synced (s.buf b) ∧
      ((s.buf b).dev = 0 ∨ s.havedisk1 = true) ∧ (s.buf b).blockno < Fs.FSSIZE ∧
      ∀ b', b' ≠ b → (s.buf b').lock ≠ none → ¬ SameBlock (s.buf b') (s.buf b))
    ⟨fun h => ⟨h.1, h.2.1, h.2.2.1, h.2.2.2.1, h.2.2.2.2⟩, fun h => ⟨h.1, h.2, h.3, h.4, h.5⟩⟩

instance [Fintype A] (s : Driver A) (act : Act A) : Decidable (ProperCall s act) := by
  cases act <;> unfold ProperCall <;> infer_instance

theorem Inv.step {act : Act A} (h : Inv s q) (hok : s.panicked = none)
    (hproper : ProperCall s act) (hs : step s act = some s') :
    s'.panicked = none ∧ ∃ q', Inv s' q' := by
  unfold Ide.step at hs
  rw [if_neg (by rw [hok]; simp)] at hs
  cases act with
  | acquiresleep p b =>
    simp only at hs
    split_ifs at hs with hfree
    cases hs
    refine ⟨hok, q, h.setBuf ?_ _⟩
    intro p' n a hp'
    have := (h.waits p' b n a hp').lock
    rw [hfree.1] at this
    cases this
  | releasesleep p b | change p b x =>
    simp only at hs
    split_ifs at hs with hown
    cases hs
    exact ⟨hok, q, h.setBuf (h.not_waited hown.1 hown.2) _⟩
  | iderw p b rounds =>
    simp only at hs
    split_ifs at hs with hp
    obtain ⟨he, hpanicked⟩ := h.iderw_enqueued hp hproper hs
    exact ⟨hpanicked.trans hok, q ++ [b], h.iderw hp hproper he⟩
  | resume p =>
    simp only at hs
    split at hs
    · next b n hp =>
        cases hs
        exact ⟨waitLoop_panicked.trans hok, q, h.waitLoop hp⟩
    · cases hs
  | kill p =>
    simp only at hs
    split at hs
    · next b n a hp =>
        cases hs
        exact ⟨hok, q, h.setAsleep hp (fun _ => rfl)⟩
    · cases hs
  | disk =>
    simp only at hs
    split at hs
    · next c hdev =>
        cases hs
        refine ⟨?_, q, h.carryOut hdev⟩
        unfold Ide.carryOut
        split <;> exact hok
    · cases hs
  | ideintr =>
    simp only at hs
    split at hs
    · next c sector hdev =>
        cases hs
        obtain ⟨b, q', rfl⟩ := h.head_of_dev (by rw [hdev]; simp)
        obtain ⟨hc, hpanicked⟩ := h.ideintr_completed
        exact ⟨hpanicked.trans hok, q', h.ideintr hdev hc⟩
    · cases hs

/-- `iderw` returns for a buffer in which the flags say so. -/
theorem Inv.returns (h : Inv s q) (hp : s.call p = .iderw b n a)
    (hs : Ide.step s (.resume p) = some s') (hret : s'.call p = .none) :
    Synced (s.buf b) ∧ n < s.completed.length := by
  have hw := h.waits p b n a hp
  have hsync : Synced (s.buf b) := by
    by_contra hsync
    unfold Ide.step at hs
    split_ifs at hs
    simp only [hp] at hs
    split at hs
    · next heq =>
        cases heq
        cases hs
        rw [waitLoop_eq hsync] at hret
        change set s.call p _ p = _ at hret
        rw [set_self] at hret
        cases hret
    · cases hs
  refine ⟨hsync, ?_⟩
  by_contra hn
  exact hw.pending (Nat.le_of_not_lt hn) hsync

/-- Requests of drive 0, to read block 5 and to write to block 6. -/
def readFive : Buf := ⟨false, false, 0, 5, none, 1, Bytes.zero⟩

def writeSix : Buf := ⟨true, true, 0, 6, none, 1, Bytes.zero.setNum 1 0 7⟩

/-- Process 1 reads a block while process 2 writes to another one; both requests
are carried out before process 1 goes on. -/
def twoBuffers : List (Act (Fin 2)) :=
  [.acquiresleep 1 0, .acquiresleep 2 1, .change 1 0 readFive, .change 2 1 writeSix,
    .iderw 1 0 1, .iderw 2 1 2, .disk, .ideintr, .disk, .ideintr]

end Requests

end Xv6.Ide
