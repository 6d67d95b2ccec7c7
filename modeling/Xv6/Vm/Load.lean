import Xv6.Vm.Kvm
import Xv6.Vm.Copyout

/-!
The part of `exec` that loads a program: the header of the file is checked, and
each segment gets its pages and its bytes. Every field of the headers is a number
that the file chooses.
-/

namespace Xv6.Vm

open Prog ByteSeq

/-! ### The file -/

/-- A regular file. -/
structure File where
  size : Nat
  byte : Nat → UInt8
  size_lt : size < 2 ^ 32

/-- The count that `readi` returns and the bytes that it copies. -/
def File.readi (f : File) (off n : Nat) : Int × (Nat → UInt8) :=
  if f.size < off ∨ uint (off + n) < off then
    (-1, fun _ => 0)
  else
    ((if f.size < uint (off + n) then f.size - off else n : Nat), fun j => f.byte (off + j))

def ELF_MAGIC : Nat := 0x464C457F
def ELF_PROG_LOAD : Nat := 1

/-- The fields of the file header that `exec` looks at. -/
structure Elfhdr where
  magic : Nat
  entry : Nat
  phoff : Nat
  phnum : Nat

/-- The size of a file header and of a program header. -/
def ELFHDR : Nat := 52
def PROGHDR : Nat := 32

def Elfhdr.read (b : Nat → UInt8) : Elfhdr where
  magic := leNat b 4
  entry := leNat (fun j => b (24 + j)) 4
  phoff := leNat (fun j => b (28 + j)) 4
  phnum := leNat (fun j => b (44 + j)) 2

/-- The fields of a program header that `exec` looks at. -/
structure Proghdr where
  type : Nat
  off : Nat
  vaddr : Nat
  filesz : Nat
  memsz : Nat

def Proghdr.read (b : Nat → UInt8) : Proghdr where
  type := leNat b 4
  off := leNat (fun j => b (4 + j)) 4
  vaddr := leNat (fun j => b (8 + j)) 4
  filesz := leNat (fun j => b (16 + j)) 4
  memsz := leNat (fun j => b (20 + j)) 4

section Definitions

variable (img : Image) (f : File)

/-- The loop of `loaduvm`. What `readi` copies goes to the page of the entry,
whether the entry is present or not. -/
def loaduvmLoop (pgdir addr offset sz : Nat) : Nat → Nat → VmM Int
  | 0, _ => return 0
  | rounds + 1, i =>
    if i < sz then do
      match ← walkpgdir pgdir (uint (addr + i)) false with
      | none => fail .loaduvmNoAddress
      | some (pgtab, j) =>
        let pte ← gets fun m => m.word pgtab j
        let pa := P2V (PTE_ADDR pte)
        let n := if sz - i < PGSIZE then sz - i else PGSIZE
        let r := f.readi (uint (offset + i)) n
        modify fun m => m.setPage pa ((m.page pa).splice 0 r.1.toNat r.2)
        if r.1 ≠ n then
          return -1
        else
          loaduvmLoop pgdir addr offset sz rounds (uint (i + PGSIZE))
    else
      return 0

def loaduvm (pgdir addr offset sz : Nat) : VmM Int := do
  panicIf (addr % PGSIZE ≠ 0) .loaduvmNotAligned
  loaduvmLoop f pgdir addr offset sz (sz / PGSIZE + 1) 0

/-- The loop over the program headers, with `k` of them left; `none` is `goto bad`. -/
def loadLoop (pgdir : Nat) : Nat → Nat → Nat → VmM (Option Nat)
  | 0, _, sz => return some sz
  | k + 1, off, sz => do
    let r := f.readi off PROGHDR
    let ph := Proghdr.read r.2
    if r.1 ≠ PROGHDR then
      return none
    else if ph.type ≠ ELF_PROG_LOAD then
      loadLoop pgdir k (uint (off + PROGHDR)) sz
    else if ph.memsz < ph.filesz then
      return none
    else if uint (ph.vaddr + ph.memsz) < ph.vaddr then
      return none
    else
      let sz ← allocuvm img pgdir sz (uint (ph.vaddr + ph.memsz))
      if sz = 0 then
        return none
      else if ph.vaddr % PGSIZE ≠ 0 then
        return none
      else if (← loaduvm f pgdir ph.vaddr ph.off ph.filesz) < 0 then
        return none
      else
        loadLoop pgdir k (uint (off + PROGHDR)) sz

/-- `exec` up to the end of the load loop: the new directory, the size and the
entry point. -/
def load : VmM (Option (Nat × Nat × Nat)) := do
  let r := f.readi 0 ELFHDR
  let elf := Elfhdr.read r.2
  if r.1 ≠ ELFHDR then
    return none
  else if elf.magic ≠ ELF_MAGIC then
    return none
  else
    let pgdir ← setupkvm img
    if pgdir = 0 then
      return none
    else
      match ← loadLoop img f pgdir elf.phnum elf.phoff 0 with
      | none => do
        freevm img pgdir
        return none
      | some sz => return some (pgdir, sz, elf.entry)

end Definitions

variable {off n x e : Nat}

theorem File.readi_full {f : File} (hoff : off < 2 ^ 32) (hn : n < 2 ^ 32)
    (h : (f.readi off n).1 = n) :
    off + n ≤ f.size ∧ (f.readi off n).2 = fun j => f.byte (off + j) := by
  unfold File.readi uint at *
  split at h
  · omega
  · next hok =>
      rw [if_neg hok]
      refine ⟨?_, rfl⟩
      simp only at h
      split at h <;> omega

theorem File.size_lt_of_readi {f : File} (hn : n < 2 ^ 32) (h : (f.readi off n).1 ≠ n) :
    f.size < off + n := by
  have hsize := f.size_lt
  unfold File.readi uint at h
  split at h
  · omega
  · simp only at h
    split at h <;> omega

theorem File.readi_le {f : File} (hoff : off < 2 ^ 32) (hn : n < 2 ^ 32) :
    (f.readi off n).1.toNat ≤ n := by
  unfold File.readi uint
  split
  · simp
  · simp only
    split <;> omega

/-! ### Bytes of a space -/

namespace Space

def byteAt (s : Space) (a : Nat) : Option UInt8 :=
  (s.user (PGROUNDDOWN a)).map fun v => v.2.byte (a % PGSIZE)

/-- The bytes that `g` gives are written to pages that are there. -/
structure Written (s s' : Space) (g : Nat → Option UInt8) : Prop where
  entries : ∀ x, (s'.user x).map Prod.fst = (s.user x).map Prod.fst
  bytes : ∀ a, s'.byteAt a = (s.byteAt a).map fun b => (g a).getD b
  kernel : s'.kernel = s.kernel

variable {s s' s'' : Space} {g g' : Nat → Option UInt8}

theorem Written.refl (s : Space) : s.Written s fun _ => none :=
  ⟨fun _ => rfl, fun a => by simp, rfl⟩

theorem Written.trans (h : s.Written s' g) (h' : s'.Written s'' g') :
    s.Written s'' fun a => (g' a).or (g a) where
  entries x := (h'.entries x).trans (h.entries x)
  bytes := by
    intro a
    rw [h'.bytes, h.bytes, Option.map_map]
    congr 1
    funext b
    cases g' a <;> rfl
  kernel := h'.kernel.trans h.kernel

theorem Written.congr (h : s.Written s' g) (hg : ∀ a, g a = g' a) : s.Written s' g' :=
  ⟨h.entries, fun a => by rw [h.bytes, hg], h.kernel⟩

theorem Written.user_ne_none (h : s.Written s' g) (x : Nat) :
    s'.user x ≠ none ↔ s.user x ≠ none := by
  have hx := h.entries x
  cases hs' : s'.user x <;> cases hs : s.user x <;> simp_all

end Space

/-- The bytes `h 0, …, h (n - 1)` from `lo` on. -/
def slice (lo n : Nat) (h : Nat → UInt8) (a : Nat) : Option UInt8 :=
  if lo ≤ a ∧ a < lo + n then some (h (a - lo)) else none

theorem slice_append (lo n k : Nat) (h : Nat → UInt8) (a : Nat) :
    (slice (lo + n) k (fun j => h (n + j)) a).or (slice lo n h a) = slice lo (n + k) h a := by
  unfold slice
  by_cases hright : lo + n ≤ a ∧ a < lo + n + k
  · have hoff : n + (a - (lo + n)) = a - lo := by omega
    rw [if_pos hright, Option.some_or, if_pos (by omega)]
    exact congrArg (fun j => some (h j)) hoff
  · rw [if_neg hright, Option.none_or]
    by_cases hleft : lo ≤ a ∧ a < lo + n
    · rw [if_pos hleft, if_pos (by omega)]
    · rw [if_neg hleft, if_neg (by omega)]

/-- Writing the beginning of a page. -/
theorem Space.written_splice {s : Space} {b : Page} {h : Nat → UInt8} (hs : s.user x = some (e, b))
    (haligned : x % PGSIZE = 0) (hn : n ≤ PGSIZE) :
    s.Written (s.setUser x (some (e, b.splice 0 n h))) (slice x n h) where
  entries := by
    intro y
    by_cases hy : y = x
    · rw [hy, setUser_self, hs]
      rfl
    · rw [setUser_of_ne _ hy]
  bytes := by
    intro a
    unfold byteAt slice
    by_cases ha : PGROUNDDOWN a = x
    · have hoff : a % PGSIZE = a - x ∧ x ≤ a ∧ a - x < PGSIZE := by
        unfold PGROUNDDOWN PGSIZE at *
        omega
      rw [ha, setUser_self, hs, Option.map_some, Option.map_some, Option.map_some,
        Bytes.byte_splice, hoff.1]
      by_cases hin : a - x < n
      · rw [if_pos (by omega), if_pos (by omega)]
        rfl
      · rw [if_neg (by omega), if_neg (by omega)]
        rfl
    · have hout : ¬ (x ≤ a ∧ a < x + n) := by
        unfold PGROUNDDOWN PGSIZE at *
        omega
      rw [setUser_of_ne _ ha, if_neg hout]
      exact Option.map_id'.symm
  kernel := rfl

/-! ### One segment -/

section Segment

variable {img : Image} {f : File} {st : Stock} {base m : Mem} {d : Nat} {free rest : List Nat}
  {s : Space} {E : Panic → Mem → Prop}

variable {addr offset : Nat}

theorem loaduvmLoop_done {sz rounds i : Nat} (h : sz ≤ i) :
    loaduvmLoop f d addr offset sz rounds i = pure 0 := by
  cases rounds with
  | zero => rfl
  | succ rounds => rw [loaduvmLoop, if_neg (Nat.not_lt.mpr h)]

theorem Shows.wp_loaduvmLoop {sz : Nat} (haddr : addr % PGSIZE = 0) (hend : addr + sz ≤ KERNBASE)
    (hoffset : offset < 2 ^ 32) (rounds : Nat) :
    ∀ {i : Nat} {m : Mem} {s : Space} {Q : Int → Mem → Prop}, Shows st base m d free rest s →
      i % PGSIZE = 0 → sz ≤ i + rounds * PGSIZE → offset + i < 2 ^ 32 →
      (∀ x, x % PGSIZE = 0 → addr + i ≤ x → x < addr + sz → s.user x ≠ none) →
      (∀ m' s', f.size < offset + sz → s'.kernel = s.kernel → Shows st base m' d free rest s' →
        Q (-1) m') →
      (∀ m' s', s.Written s' (slice (addr + i) (sz - i) fun j => f.byte (offset + i + j)) →
        Shows st base m' d free rest s' → Q 0 m') →
      wp (loaduvmLoop f d addr offset sz rounds i) Q E m := by
  induction rounds with
  | zero =>
    intro i m s Q h _ hrounds _ _ _ hok
    refine hok m s ((Space.Written.refl s).congr fun a => ?_) h
    unfold slice
    rw [if_neg (by omega)]
  | succ rounds ih =>
    intro i m s Q h hi hrounds hoff hmapped hfail hok
    have hstep : (rounds + 1) * PGSIZE = rounds * PGSIZE + PGSIZE := by ring
    rw [loaduvmLoop]
    apply wp_ite
    · intro hlt
      have hva : uint (addr + i) = addr + i := by
        unfold uint
        unfold KERNBASE at hend
        omega
      have hx : addr + i < KERNBASE := by omega
      have haligned : (addr + i) % PGSIZE = 0 := by
        unfold PGSIZE at *
        omega
      obtain ⟨⟨e, b⟩, huser⟩ := Option.ne_none_iff_exists'.mp
        (hmapped (addr + i) haligned (Nat.le_refl _) (by omega))
      obtain ⟨hmap, hpage⟩ := h.mapping_of_user hx haligned huser
      obtain ⟨t, ht, hword⟩ := Mem.table_of_mapping hmap
      rw [hva, wp_bind]
      apply wp_walk
      obtain ⟨n, hn⟩ : ∃ n, n = if sz - i < PGSIZE then sz - i else PGSIZE := ⟨_, rfl⟩
      have hn' : n ≤ PGSIZE ∧ n ≤ sz - i ∧ (n < PGSIZE → n = sz - i) ∧ n < 2 ^ 32 := by
        unfold PGSIZE at *
        split at hn <;> omega
      have huint : uint (offset + i) = offset + i := Nat.mod_eq_of_lt hoff
      rw [ht, Option.map_some]
      simp only [wp_bind, wp_gets, wp_modify, ← hn, hword, huint]
      obtain ⟨r, hr⟩ : ∃ r, r = f.readi (offset + i) n := ⟨_, rfl⟩
      have hle : r.1.toNat ≤ PGSIZE := by
        have := File.readi_le (f := f) hoff hn'.2.2.2
        rw [← hr] at this
        omega
      rw [← hr]
      have hstored := h.store hx haligned huser (b.splice 0 r.1.toNat r.2)
      rw [show m.page (P2V (PTE_ADDR e)) = b from hpage]
      have hwritten := Space.written_splice (h := r.2) huser haligned hle
      apply wp_ite
      · intro hshort
        have hsize := File.size_lt_of_readi hn'.2.2.2 (hr ▸ hshort)
        rw [wp_pure]
        exact hfail _ (s.setUser (addr + i) _) (by omega) rfl hstored
      · intro hfull
        rw [not_not] at hfull
        obtain ⟨hbound, hbytes⟩ := File.readi_full hoff hn'.2.2.2 (hr ▸ hfull)
        rw [← hr] at hbytes
        have hcount : r.1.toNat = n := by omega
        rw [hcount] at hstored hwritten ⊢
        rw [hbytes] at hstored hwritten ⊢
        rw [uint_next (by omega)]
        by_cases hlast : n = sz - i
        · rw [loaduvmLoop_done (by omega), wp_pure]
          rw [hlast] at hstored hwritten
          exact hok _ _ hwritten (hlast ▸ hstored)
        · have hpg : n = PGSIZE := by omega
          have hsz := f.size_lt
          refine ih hstored ?_ (by omega) ?_ ?_ ?_ ?_
          · rw [Nat.add_mod_right, hi]
          · rw [← Nat.add_assoc]
            rw [hpg] at hbound
            omega
          · intro x hxa hge hlt'
            refine (hwritten.user_ne_none x).mpr (hmapped x hxa (by omega) hlt')
          · intro m' s' hsize hkernel hm'
            exact hfail m' s' hsize (hkernel.trans hwritten.kernel) hm'
          · intro m' s' hmore hm'
            refine hok m' s' ((hwritten.trans hmore).congr fun a => ?_) hm'
            have happend := slice_append (addr + i) n (sz - (i + PGSIZE))
              (fun j => f.byte (offset + i + j)) a
            rw [show n + (sz - (i + PGSIZE)) = sz - i by omega] at happend
            rw [← happend, hpg]
            simp only [Nat.add_assoc]
    · intro hdone
      refine hok m s ((Space.Written.refl s).congr fun a => ?_) h
      unfold slice
      rw [if_neg (by omega)]

theorem Shows.wp_loaduvm {sz : Nat} {Q : Int → Mem → Prop} (h : Shows st base m d free rest s)
    (haddr : addr % PGSIZE = 0) (hend : addr + sz ≤ KERNBASE) (hoffset : offset < 2 ^ 32)
    (hmapped : ∀ x, x % PGSIZE = 0 → addr ≤ x → x < addr + sz → s.user x ≠ none)
    (hfail : ∀ m' s', f.size < offset + sz → s'.kernel = s.kernel →
      Shows st base m' d free rest s' → Q (-1) m')
    (hok : ∀ m' s', s.Written s' (slice addr sz fun j => f.byte (offset + j)) →
      Shows st base m' d free rest s' → Q 0 m') :
    wp (loaduvm f d addr offset sz) Q E m := by
  unfold loaduvm
  rw [wp_bind, wp_panicIf]
  refine ⟨fun hbad => absurd haddr hbad, fun _ => ?_⟩
  refine h.wp_loaduvmLoop haddr hend hoffset _ (Nat.zero_mod _) ?_ hoffset hmapped hfail hok
  unfold PGSIZE
  omega

end Segment

/-! ### The loop over the segments -/

/-- The bytes that a segment puts in place. -/
def Proghdr.bytes (f : File) (ph : Proghdr) : Nat → Option UInt8 :=
  slice ph.vaddr ph.filesz fun j => f.byte (ph.off + j)

/-- The program headers that the loop reads. -/
def File.proghdrs (f : File) : Nat → Nat → List Proghdr
  | 0, _ => []
  | k + 1, off => Proghdr.read (f.readi off PROGHDR).2 :: f.proghdrs k (uint (off + PROGHDR))

/-- The segments that it loads. -/
def File.segments (f : File) (k off : Nat) : List Proghdr :=
  (f.proghdrs k off).filter fun ph => ph.type = ELF_PROG_LOAD

/-- The bytes after some more segments: each goes over those before it. -/
def placed (f : File) : List Proghdr → (Nat → Option UInt8) → Nat → Option UInt8
  | [], g => g
  | ph :: phs, g => placed f phs fun a => (ph.bytes f a).or (g a)

theorem placed_append (f : File) (phs phs' : List Proghdr) (g : Nat → Option UInt8) :
    placed f (phs ++ phs') g = placed f phs' (placed f phs g) := by
  induction phs generalizing g with
  | nil => rfl
  | cons ph phs ih => exact ih _

theorem placed_of_disjoint {f : File} {phs : List Proghdr} {a : Nat}
    (h : ∀ ph ∈ phs, ph.bytes f a = none) (g : Nat → Option UInt8) : placed f phs g a = g a := by
  induction phs generalizing g with
  | nil => rfl
  | cons ph phs ih =>
    rw [placed, ih fun ph' hph' => h ph' (List.mem_cons_of_mem _ hph'), h ph List.mem_cons_self,
      Option.none_or]

/-- What is in memory where no later segment lies. -/
theorem placed_of_last {f : File} {after : List Proghdr} {ph : Proghdr} {k : Nat}
    (before : List Proghdr) (hk : k < ph.filesz)
    (hafter : ∀ ph' ∈ after, ¬ (ph'.vaddr ≤ ph.vaddr + k ∧ ph.vaddr + k < ph'.vaddr + ph'.filesz))
    (g : Nat → Option UInt8) :
    placed f (before ++ ph :: after) g (ph.vaddr + k) = some (f.byte (ph.off + k)) := by
  rw [placed_append, placed, placed_of_disjoint]
  · unfold Proghdr.bytes slice
    rw [if_pos (by omega), Nat.add_sub_cancel_left, Option.some_or]
  · intro ph' hph'
    exact if_neg (hafter ph' hph')

/-- The pages below `sz` are there, all of them for the user, and hold the bytes
of `g` and zeros. -/
structure Space.Loaded (s : Space) (sz : Nat) (g : Nat → Option UInt8) : Prop where
  below : ∀ x, s.user x ≠ none ↔ x % PGSIZE = 0 ∧ x < sz
  entries : ∀ x v, s.user x = some v → ∃ p, IsPage p ∧ v.1 = userPte p
  bytes : ∀ a b, s.byteAt a = some b → b = (g a).getD 0
  inside : ∀ a, g a ≠ none → a < sz

namespace Space.Loaded

variable {s s' : Space} {sz newsz : Nat} {g g' : Nat → Option UInt8} {free : List Nat}

theorem grow (h : s.Loaded sz g) (hle : sz ≤ newsz) (hlt : newsz < KERNBASE)
    (hfree : ∀ p ∈ free, IsPage p)
    (hgrown : s.Grown s' free (pages (PGROUNDUP sz) newsz)) : s'.Loaded newsz g := by
  have hup := PGROUNDUP_aligned sz
  have hround : ∀ x, x % PGSIZE = 0 → (x < PGROUNDUP sz ↔ x < sz) := fun x hx =>
    lt_PGROUNDUP hx (by omega)
  have hsz : sz ≤ PGROUNDUP sz := by
    unfold PGROUNDUP uint PGSIZE
    unfold KERNBASE at hlt
    omega
  refine ⟨?_, ?_, ?_, ?_⟩
  · intro x
    by_cases hx : x ∈ pages (PGROUNDUP sz) newsz
    · obtain ⟨p, -, hnew⟩ := hgrown.new x hx
      obtain ⟨haligned, -, hlt'⟩ := (mem_pages hup).mp hx
      rw [hnew]
      exact iff_of_true (Option.some_ne_none _) ⟨haligned, hlt'⟩
    · rw [hgrown.old x hx, h.below x]
      rw [mem_pages hup] at hx
      constructor
      · rintro ⟨haligned, hxsz⟩
        exact ⟨haligned, by omega⟩
      · rintro ⟨haligned, hxsz⟩
        have := hround x haligned
        exact ⟨haligned, by omega⟩
  · intro x v hv
    by_cases hx : x ∈ pages (PGROUNDUP sz) newsz
    · obtain ⟨p, hp, hnew⟩ := hgrown.new x hx
      rw [hnew] at hv
      obtain rfl := Option.some.inj hv
      exact ⟨p, hfree p hp, rfl⟩
    · rw [hgrown.old x hx] at hv
      exact h.entries x v hv
  · intro a b hb
    unfold byteAt at hb
    by_cases hx : PGROUNDDOWN a ∈ pages (PGROUNDUP sz) newsz
    · obtain ⟨p, -, hnew⟩ := hgrown.new _ hx
      obtain ⟨-, hge, -⟩ := (mem_pages hup).mp hx
      have hnone : g a = none := by
        by_contra hsome
        have := h.inside a hsome
        have : PGROUNDDOWN a ≤ a := Nat.div_mul_le_self a PGSIZE
        omega
      rw [hnew, Option.map_some, Bytes.byte_zero] at hb
      rw [hnone]
      exact (Option.some.inj hb).symm
    · rw [hgrown.old _ hx] at hb
      exact h.bytes a b hb
  · intro a ha
    exact Nat.lt_of_lt_of_le (h.inside a ha) hle

theorem write (h : s.Loaded sz g) (hg' : ∀ a, g' a ≠ none → a < sz) (hwritten : s.Written s' g') :
    s'.Loaded sz fun a => (g' a).or (g a) := by
  refine ⟨?_, ?_, ?_, ?_⟩
  · intro x
    rw [hwritten.user_ne_none x, h.below x]
  · intro x v hv
    have hfst := hwritten.entries x
    rw [hv, Option.map_some] at hfst
    obtain ⟨w, hw, hwv⟩ := Option.map_eq_some_iff.mp hfst.symm
    obtain ⟨p, hp, hentry⟩ := h.entries x w hw
    exact ⟨p, hp, hwv.symm.trans hentry⟩
  · intro a b hb
    rw [hwritten.bytes a] at hb
    obtain ⟨c, hc, rfl⟩ := Option.map_eq_some_iff.mp hb
    rw [h.bytes a c hc]
    cases g' a <;> rfl
  · intro a ha
    cases hga : g' a with
    | none =>
      rw [hga, Option.none_or] at ha
      exact h.inside a ha
    | some b => exact hg' a (by rw [hga]; exact Option.some_ne_none b)

end Space.Loaded

theorem Proghdr.read_lt (b : Nat → UInt8) : (Proghdr.read b).off < 2 ^ 32 ∧
    (Proghdr.read b).vaddr < 2 ^ 32 ∧ (Proghdr.read b).memsz < 2 ^ 32 :=
  ⟨leNat_lt _ 4, leNat_lt _ 4, leNat_lt _ 4⟩

section Loop

variable {img : Image} {f : File} {st : Stock} {base : Mem} {d : Nat} {rest : List Nat}
  {E : Panic → Mem → Prop}

/-- `allocuvm` for a segment that ends at `newsz`. -/
theorem Shows.wp_allocuvm_loaded {newsz : Nat} {Q : Nat → Mem → Prop}
    (h : Shows st base m d free rest s) (hE : KfreeStops img st E) (hloaded : s.Loaded sz g)
    (hsz : sz ≤ KERNBASE) (hlt : newsz < sz → sz < KERNBASE)
    (hnone : ∀ m' free' s', s'.kernel = s.kernel → Shows st base m' d free' rest s' → Q 0 m')
    (hok : ∀ m' free' s' sz', s'.kernel = s.kernel → sz' = max sz newsz → sz' < KERNBASE →
      s'.Loaded sz' g → Shows st base m' d free' rest s' → Q sz' m') :
    wp (allocuvm img d sz newsz) Q E m := by
  have hfree : ∀ p ∈ free, IsPage p := fun p hp => h.isPage (List.mem_append_left _ hp)
  apply h.wp_allocuvm hE
  · exact fun _ => hnone m free s rfl h
  · exact fun _ hless => hok m free s sz rfl (by omega) (hlt hless) hloaded h
  · rintro ⟨x, hx, huser⟩
    obtain ⟨haligned, hge, -⟩ := (mem_pages (PGROUNDUP_aligned sz)).mp hx
    have := (hloaded.below x).mp huser
    have := lt_PGROUNDUP haligned hsz
    omega
  · intro m₁ s₁ hlt₁ hle₁ _ hgrown hm₁
    exact hok m₁ _ s₁ newsz hgrown.kernel (by omega) hlt₁ (hloaded.grow hle₁ hlt₁ hfree hgrown) hm₁
  · intro m₁ free₁ s₁ _ _ _ hcleared hm₁
    exact hnone m₁ free₁ s₁ hcleared.kernel hm₁

/-- The loop never stops, and what it leaves after a failure can be freed. -/
theorem Shows.wp_loadLoop (hE : KfreeStops img st E) (k : Nat) :
    ∀ {off sz : Nat} {m : Mem} {free : List Nat} {s : Space} {g : Nat → Option UInt8}
      {Q : Option Nat → Mem → Prop},
      Shows st base m d free rest s → s.Loaded sz g → sz < KERNBASE →
      (∀ m' free' s', s'.kernel = s.kernel → Shows st base m' d free' rest s' → Q none m') →
      (∀ m' free' s' sz', s'.kernel = s.kernel → sz ≤ sz' → sz' < KERNBASE →
        (∀ ph ∈ f.segments k off, ph.vaddr + ph.memsz ≤ sz') →
        s'.Loaded sz' (placed f (f.segments k off) g) →
        Shows st base m' d free' rest s' → Q (some sz') m') →
      wp (loadLoop img f d k off sz) Q E m := by
  induction k with
  | zero =>
    intro off sz m free s g Q h hloaded hsz _ hok
    exact hok m free s sz rfl (Nat.le_refl _) hsz
      (fun _ hph => absurd hph List.not_mem_nil) hloaded h
  | succ k ih =>
    intro off sz m free s g Q h hloaded hsz hfail hok
    obtain ⟨ph, hph⟩ : ∃ ph, ph = Proghdr.read (f.readi off PROGHDR).2 := ⟨_, rfl⟩
    obtain ⟨hoff, hvaddr, hmemsz⟩ : ph.off < 2 ^ 32 ∧ ph.vaddr < 2 ^ 32 ∧ ph.memsz < 2 ^ 32 :=
      hph ▸ Proghdr.read_lt _
    unfold File.segments File.proghdrs at hok
    rw [loadLoop]
    simp only [← hph] at hok ⊢
    refine wp_ite (fun _ => hfail m free s rfl h) fun _ => ?_
    apply wp_ite
    · intro htype
      rw [List.filter_cons_of_neg (by simpa using htype)] at hok
      exact ih h hloaded hsz hfail hok
    · intro htype
      rw [List.filter_cons_of_pos (by simpa using htype)] at hok
      refine wp_ite (fun _ => hfail m free s rfl h) fun hfilesz => ?_
      refine wp_ite (fun _ => hfail m free s rfl h) fun hwrap => ?_
      have hend : uint (ph.vaddr + ph.memsz) = ph.vaddr + ph.memsz := by
        unfold uint at *
        omega
      rw [hend, wp_bind]
      refine h.wp_allocuvm_loaded hE hloaded hsz.le (fun _ => hsz) ?_ ?_
      · intro m₁ free₁ s₁ hk₁ hm₁
        rw [if_pos rfl]
        exact hfail m₁ free₁ s₁ hk₁ hm₁
      · intro m₁ free₁ s₁ sz₁ hk₁ hmax hlt₁ hloaded₁ hm₁
        have hle₁ : sz ≤ sz₁ ∧ ph.vaddr + ph.memsz ≤ sz₁ := by omega
        refine wp_ite (fun _ => hfail m₁ free₁ s₁ hk₁ hm₁) fun _ => ?_
        refine wp_ite (fun _ => hfail m₁ free₁ s₁ hk₁ hm₁) fun haligned => ?_
        rw [wp_bind]
        refine hm₁.wp_loaduvm (not_not.mp haligned) (by omega) hoff ?_ ?_ ?_
        · intro x hxa _ hx
          exact (hloaded₁.below x).mpr ⟨hxa, by omega⟩
        · intro m₂ s₂ _ hk₂ hm₂
          rw [if_pos (by decide)]
          exact hfail m₂ free₁ s₂ (hk₂.trans hk₁) hm₂
        · intro m₂ s₂ hwritten hm₂
          rw [if_neg (by decide)]
          have hinside : ∀ a, ph.bytes f a ≠ none → a < sz₁ := by
            intro a ha
            by_contra hge
            exact ha (if_neg (by omega))
          have hk₂ := hwritten.kernel.trans hk₁
          refine ih hm₂ (hloaded₁.write hinside hwritten) hlt₁ ?_ ?_
          · intro m' free' s' hk' hm'
            exact hfail m' free' s' (hk'.trans hk₂) hm'
          · intro m' free' s' sz' hk' hle' hlt' hall hloaded' hm'
            refine hok m' free' s' sz' (hk'.trans hk₂) (hle₁.1.trans hle') hlt' ?_ hloaded' hm'
            intro ph' hph'
            rcases List.mem_cons.mp hph' with rfl | hph'
            · exact hle₁.2.trans hle'
            · exact hall ph' hph'

end Loop

/-! ### What is reachable in a loaded space -/

theorem reachable_userPte (p : Nat) : Reachable (userPte p) := by
  rw [reachable_iff]
  unfold userPte
  rw [Nat.testBit_or, Nat.testBit_or, show (PTE_W ||| PTE_U).testBit 2 = true by decide,
    Bool.or_true, Bool.true_or]

/-- The byte that user code sees at an address. -/
def Mem.userByte (m : Mem) (d a : Nat) : Option UInt8 :=
  (m.userPage d a).map fun q => (m.page q).byte (a % PGSIZE)

section Shown

variable {img : Image} {st : Stock} {base m : Mem} {d sz : Nat} {free rest : List Nat} {s : Space}
  {g : Nat → Option UInt8}

/-- What is mapped at an address below `sz` when all pages there are. -/
theorem Shows.mapped_below {a : Nat} (h : Shows st base m d free rest s)
    (hbelow : ∀ x, s.user x ≠ none ↔ x % PGSIZE = 0 ∧ x < sz) (hsz : sz ≤ KERNBASE) (ha : a < sz) :
    ∃ e b, s.user (PGROUNDDOWN a) = some (e, b) ∧ m.mapping d a = some e ∧
      (Reachable e → m.userByte d a = s.byteAt a) := by
  have hle : PGROUNDDOWN a ≤ a := Nat.div_mul_le_self a PGSIZE
  have haligned : PGROUNDDOWN a % PGSIZE = 0 := Nat.mul_mod_left _ _
  obtain ⟨⟨e, b⟩, huser⟩ := Option.ne_none_iff_exists'.mp
    ((hbelow (PGROUNDDOWN a)).mpr ⟨haligned, by omega⟩)
  obtain ⟨hmap, hpage⟩ := h.mapping_of_user (by omega) haligned huser
  rw [Mem.mapping_round] at hmap
  refine ⟨e, b, huser, hmap, fun hreach => ?_⟩
  unfold Mem.userByte Space.byteAt
  rw [Mem.userPage_eq_some.mpr ⟨e, hmap, hreach, rfl⟩, huser, Option.map_some,
    Option.map_some, hpage]

theorem Shows.userByte_of_loaded (h : Shows st base m d free rest s) (hloaded : s.Loaded sz g)
    (hsz : sz < KERNBASE) {a : Nat} (ha : a < sz) : m.userByte d a = some ((g a).getD 0) := by
  obtain ⟨e, b, huser, -, hbyte⟩ := h.mapped_below hloaded.below hsz.le ha
  obtain ⟨p, -, rfl⟩ := hloaded.entries _ _ huser
  have hat : s.byteAt a = some (b.byte (a % PGSIZE)) := by
    unfold Space.byteAt
    rw [huser, Option.map_some]
  rw [hbyte (reachable_userPte p), hat, hloaded.bytes a _ hat]

theorem Shows.userBelow_of_loaded (h : Shows st base m d free rest s) (hloaded : s.Loaded sz g)
    (hsz : sz < KERNBASE) : m.UserBelow d sz := by
  intro x hx haligned
  rw [Ne, h.mapping_eq_none hx haligned, lt_PGROUNDUP haligned (Nat.le_of_lt hsz), ← Ne,
    hloaded.below x]
  exact and_iff_right haligned

end Shown

/-! ### The whole load -/

/-- The file header. -/
def File.elfhdr (f : File) : Elfhdr := Elfhdr.read (f.readi 0 ELFHDR).2

/-- The segments that the file header points to. -/
def File.loaded (f : File) : List Proghdr := f.segments f.elfhdr.phnum f.elfhdr.phoff

section Load

variable {img : Image} {f : File} {st : Stock} {base m : Mem} {free rest : List Nat}
  {E : Panic → Mem → Prop}

theorem Space.loaded_nil {s : Space} (hs : s.user = fun _ => none) : s.Loaded 0 fun _ => none where
  below x := by
    rw [hs]
    exact iff_of_false (fun hne => hne rfl) (fun hlt => Nat.not_lt_zero x hlt.2)
  entries x v hv := by
    rw [hs] at hv
    cases hv
  bytes a b hb := by
    unfold Space.byteAt at hb
    rw [hs] at hb
    cases hb
  inside a ha := absurd rfl ha

theorem Pool.wp_load {Q : Option (Nat × Nat × Nat) → Mem → Prop} (h : Pool st base m free rest)
    (hE : KfreeStops img st E) (hnone : ∀ m' free', Pool st base m' free' rest → Q none m')
    (hsome : ∀ d m' free' s' sz, d ≠ 0 → sz < KERNBASE →
      (∀ x, x % PGSIZE = 0 → s'.kernel x = kernelMap (kmap img) x) →
      (∀ ph ∈ f.loaded, ph.vaddr + ph.memsz ≤ sz) →
      s'.Loaded sz (placed f f.loaded fun _ => none) → Shows st base m' d free' rest s' →
      Q (some (d, sz, f.elfhdr.entry)) m') : wp (load img f) Q E m := by
  unfold load
  refine wp_ite (fun _ => hnone m free h) fun _ => ?_
  refine wp_ite (fun _ => hnone m free h) fun _ => ?_
  rw [wp_bind]
  apply h.wp_setupkvm hE
  · intro m₁ free₁ _ hm₁
    rw [if_pos rfl]
    exact hnone m₁ free₁ hm₁
  · intro d m₁ free₁ s₁ hpos _ hnew hm₁
    rw [if_neg hpos, wp_bind]
    refine hm₁.wp_loadLoop hE _ (Space.loaded_nil hnew.user) (by decide) ?_ ?_
    · intro m₂ free₂ s₂ _ hm₂
      rw [wp_bind]
      refine hm₂.wp_freevm hE fun m₃ free₃ hm₃ => ?_
      rw [wp_pure]
      exact hnone m₃ free₃ hm₃
    · intro m₂ free₂ s₂ sz hkernel₂ _ hlt hall hloaded hm₂
      rw [wp_pure]
      refine hsome d m₂ free₂ s₂ sz hpos hlt (fun x hx => ?_) hall hloaded hm₂
      rw [hkernel₂, hnew.kernel x hx]

end Load

/-- The program is in memory: the pages below the size are there and no user page
is above the user half, every segment lies below the size, and its bytes are the
file's where no later segment lies over them. -/
structure Holds (f : File) (m : Mem) (d sz : Nat) : Prop where
  size : sz < KERNBASE
  below : m.UserBelow d sz
  reachable : ∀ a < sz, m.userPage d a ≠ none
  kernel : ∀ x, KERNBASE ≤ x → x < 2 ^ 32 → m.userPage d x = none
  segments : ∀ ph ∈ f.loaded, ph.vaddr + ph.memsz ≤ sz
  bytes : ∀ before ph after, f.loaded = before ++ ph :: after → ∀ k < ph.filesz,
    (∀ ph' ∈ after, ¬ (ph'.vaddr ≤ ph.vaddr + k ∧ ph.vaddr + k < ph'.vaddr + ph'.filesz)) →
    m.userByte d (ph.vaddr + k) = some (f.byte (ph.off + k))

section Survives

variable {img : Image} {st : Stock} {base m : Mem} {d cur sz : Nat} {free rest : List Nat}
  {s : Space}

theorem Shows.holds {f : File} (h : Shows st base m d free rest s)
    (hloaded : s.Loaded sz (placed f f.loaded fun _ => none)) (hsz : sz < KERNBASE)
    (hkernel : ∀ x, x % PGSIZE = 0 → s.kernel x = kernelMap (kmap img) x)
    (hall : ∀ ph ∈ f.loaded, ph.vaddr + ph.memsz ≤ sz) : Holds f m d sz where
  size := hsz
  below := h.userBelow_of_loaded hloaded hsz
  reachable := by
    intro a ha hnone
    have hbyte := h.userByte_of_loaded hloaded hsz ha
    unfold Mem.userByte at hbyte
    rw [hnone] at hbyte
    cases hbyte
  kernel _ hx hlt := h.userPage_kernel hkernel hx hlt
  segments := hall
  bytes := by
    intro before ph after heq k hk hafter
    have hplaced := placed_of_last (f := f) before hk hafter fun _ => none
    rw [← heq] at hplaced
    have hlt : ph.vaddr + k < sz := by
      apply hloaded.inside
      rw [hplaced]
      exact Option.some_ne_none _
    rw [h.userByte_of_loaded hloaded hsz hlt, hplaced]
    rfl

/-- The loader comes back from every file. It fails and gives back all it took, or
the program is in memory; and however many rounds of its loop there are, none of
them maps a user page above the user half. -/
theorem load_survives (h : Sound img m cur free rest) (f : File) :
    (∃ r m', load img f m = (.ok r, m') ∧
      (∀ p ∈ rest ++ m.owned cur, m'.page p = m.page p) ∧
      (r = none ∧ (∃ free', m'.FreeList free' ∧ free'.Perm free) ∨
        ∃ d sz, r = some (d, sz, f.elfhdr.entry) ∧ Holds f m' d sz ∧
          ∃ free', Sound img m' d free' (rest ++ m.owned cur))) ∧
    ∀ d m₁, setupkvm img m = (.ok d, m₁) → d ≠ 0 → ∀ k off, ∃ r m₂,
      loadLoop img f d k off 0 m₁ = (.ok r, m₂) ∧
        ∀ x, KERNBASE ≤ x → x < 2 ^ 32 → m₂.userPage d x = none := by
  obtain ⟨st, husable, hpool⟩ := h.pool
  have hE : KfreeStops img st fun _ _ => False := kfreeStops_of_usable husable
  constructor
  · refine exists_of_wp (hpool.wp_load hE ?_ ?_)
    · intro m' free' hm'
      exact ⟨hm'.kept, Or.inl ⟨rfl, free', hm'.list, hpool.free_perm hm'⟩⟩
    · intro d m' free' s' sz _ hsz hkernel hall hloaded hm'
      refine ⟨hm'.kept, Or.inr ⟨d, sz, rfl, hm'.holds hloaded hsz hkernel hall, free', ?_⟩⟩
      exact hm'.sound husable
  · intro d m₁ hrun hpos k off
    have hsetup : wp (setupkvm img) (fun d m₁ => d ≠ 0 → ∃ free₁ s₁, s₁.New img ∧
        Shows st m m₁ d free₁ (rest ++ m.owned cur) s₁) (fun _ _ => False) m := by
      apply hpool.wp_setupkvm hE
      · intro _ _ _ _ hne
        exact absurd rfl hne
      · intro d m₁ free₁ s₁ _ _ hnew hm₁ _
        exact ⟨free₁, s₁, hnew, hm₁⟩
    obtain ⟨free₁, s₁, hnew, hm₁⟩ := of_wp_ok hsetup hrun hpos
    refine exists_of_wp (hm₁.wp_loadLoop hE k (Space.loaded_nil hnew.user) (by decide) ?_ ?_)
    · intro m₂ free₂ s₂ hk₂ hm₂ x hx hlt
      exact hm₂.userPage_kernel (fun y hy => (congrFun hk₂ y).trans (hnew.kernel y hy)) hx hlt
    · intro m₂ free₂ s₂ sz hk₂ _ _ _ _ hm₂ x hx hlt
      exact hm₂.userPage_kernel (fun y hy => (congrFun hk₂ y).trans (hnew.kernel y hy)) hx hlt

end Survives

/-! ### A program -/

/-- A program of four bytes. -/
def tinyFile : File where
  size := 88
  byte := fun j =>
    ([(0, 0x7F), (1, 0x45), (2, 0x4C), (3, 0x46), (28, 52), (44, 1), (52, 1), (56, 84),
      (68, 4), (72, 4), (84, 0x31), (85, 0xC0), (86, 0xEB), (87, 0xFE)].lookup j).getD 0
  size_lt := by decide

/-- There is memory enough for it, and for a stack. -/
theorem load_tinyFile : ∃ d m', load smallImage tinyFile wideMachine = (.ok (some (d, 4, 0)), m') ∧
    m'.UserBelow d 4 ∧ ∃ free', 100 ≤ free'.length ∧ Sound smallImage m' d free' [0x80400000] := by
  obtain ⟨st, husable, hpool⟩ := wideMachine_sound.pool
  have hE : KfreeStops smallImage st fun _ _ => False := kfreeStops_of_usable husable
  have hown : wideMachine.owned 0x80400000 = [0x80400000] := Mem.owned_of_zero rfl
  have hrun : wp (load smallImage tinyFile) (fun r m' => ∃ d, r = some (d, 4, 0) ∧
      m'.UserBelow d 4 ∧ ∃ free', 100 ≤ free'.length ∧ Sound smallImage m' d free' [0x80400000])
      (fun _ _ => False) wideMachine := by
    have hheader : ((tinyFile.readi 0 ELFHDR).1 = ELFHDR) ∧ tinyFile.elfhdr.magic = ELF_MAGIC ∧
        tinyFile.elfhdr.phnum = 1 ∧ tinyFile.elfhdr.phoff = 52 ∧ tinyFile.elfhdr.entry = 0 := by
      decide
    have hph : (tinyFile.readi 52 PROGHDR).1 = PROGHDR ∧
        Proghdr.read (tinyFile.readi 52 PROGHDR).2 = ⟨1, 84, 0, 4, 4⟩ := ⟨rfl, rfl⟩
    have hpages : pages (PGROUNDUP 0) 4 = [0] := by decide +kernel
    unfold load
    refine wp_ite (fun hbad => absurd hheader.1 hbad) fun _ => ?_
    refine wp_ite (fun hbad => absurd hheader.2.1 hbad) fun _ => ?_
    rw [wp_bind]
    apply hpool.wp_setupkvm hE
    · intro _ _ hshort
      exact absurd hshort (by rw [wideFree_length]; decide)
    · intro d m₁ free₁ s₁ hpos hlength hnew hm₁
      rw [wideFree_length, wideCount, kernelPages] at hlength
      have huser := hnew.user
      have hneed : s₁.need [0] ≤ 2 := by
        unfold Space.need Space.need Space.missing
        split <;> omega
      change wp (if d = 0 then _ else loadLoop smallImage tinyFile d tinyFile.elfhdr.phnum
        tinyFile.elfhdr.phoff 0 >>= _) _ _ _
      rw [if_neg hpos, wp_bind, hheader.2.2.1, hheader.2.2.2.1, loadLoop]
      simp only [hph.2]
      refine wp_ite (fun hbad => absurd hph.1 hbad) fun _ => ?_
      refine wp_ite (fun hbad => absurd rfl hbad) fun _ => ?_
      refine wp_ite (fun hbad => absurd hbad (by decide)) fun _ => ?_
      refine wp_ite (fun hbad => absurd hbad (by decide)) fun _ => ?_
      rw [wp_bind, show uint (0 + 4) = 4 from rfl]
      apply hm₁.wp_allocuvm hE
      · exact fun hbig => absurd hbig (by decide)
      · exact fun _ hless => absurd hless (by decide)
      · rintro ⟨x, -, hx⟩
        rw [huser] at hx
        exact absurd rfl hx
      · intro m₂ s₂ _ _ _ hgrown hm₂
        rw [hpages] at hgrown
        refine wp_ite (fun hbad => absurd hbad (by decide)) fun _ => ?_
        refine wp_ite (fun hbad => absurd rfl hbad) fun _ => ?_
        rw [wp_bind]
        apply hm₂.wp_loaduvm (by decide) (by decide) (by decide)
        · intro x hxa _ hx
          obtain rfl : x = 0 := by
            unfold PGSIZE at hxa
            omega
          obtain ⟨p, -, hnew⟩ := hgrown.new 0 List.mem_cons_self
          rw [hnew]
          exact Option.some_ne_none _
        · intro _ _ hshort
          exact absurd hshort (by decide)
        · intro m₃ s₃ hwritten hm₃
          rw [if_neg (by decide), loadLoop, wp_pure]
          refine ⟨d, congrArg (fun entry => some (d, 4, entry)) hheader.2.2.2.2, ?_, _, ?_,
            hown ▸ hm₃.sound husable⟩
          · have hfree : ∀ p ∈ free₁, IsPage p := fun p hp => hm₁.isPage (List.mem_append_left _ hp)
            have hgrown₂ : s₂.Loaded 4 fun _ => none :=
              (Space.loaded_nil huser).grow (by decide) (by decide) hfree (hpages ▸ hgrown)
            refine hm₃.userBelow_of_loaded (hgrown₂.write (fun a ha => ?_) hwritten) (by decide)
            by_contra hge
            exact ha (if_neg (by omega))
          · rw [hpages, List.length_drop]
            omega
      · intro _ _ _ _ _ hshort
        rw [hpages] at hshort
        omega
  obtain ⟨r, m', hrun, d, rfl, hsound⟩ := exists_of_wp hrun
  exact ⟨d, m', hrun, hsound⟩

theorem load_survives_tinyFile : ∃ d m',
    load smallImage tinyFile wideMachine = (.ok (some (d, 4, 0)), m') ∧ Holds tinyFile m' d 4 := by
  obtain ⟨d, m', hrun, -⟩ := load_tinyFile
  obtain ⟨⟨r, m'', hrun', -, hcases⟩, -⟩ := load_survives wideMachine_sound tinyFile
  rw [hrun] at hrun'
  obtain ⟨hr, rfl⟩ := Prod.mk.inj hrun'
  obtain rfl := Except.ok.inj hr
  obtain ⟨hnone, -⟩ | ⟨d', sz, hr', hholds, -⟩ := hcases
  · cases hnone
  · obtain ⟨rfl, hrest⟩ := Prod.mk.inj (Option.some.inj hr')
    obtain ⟨rfl, -⟩ := Prod.mk.inj hrest
    exact ⟨d, m', hrun, hholds⟩

end Xv6.Vm
