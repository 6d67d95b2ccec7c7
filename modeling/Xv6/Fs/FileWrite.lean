import Xv6.Fs.Reading
import Xv6.Fs.ReadWrite

/-!
`filewrite` on a regular file: each of its transactions writes the next bytes
at the offset of the open file and moves the offset behind them, so that the
pieces add up to one write.
-/

namespace Xv6.Fs

open Prog

section Section

variable {σ P : Type} [DecidableEq P] (o : Ops σ P) (p : P)

/-- One transaction of `filewrite`: `n1` bytes, when `i` are already written. -/
def filewriteSection (f : Fin NFILE) (ip : Ip) (src : Nat → UInt8) (i n1 : Nat) :
    Prog σ Panic Int := do
  o.kernel beginOp
  ilock o p ip
  let t ← o.kernel (gets Kernel.ftable)
  let r ← writei o p ip (fun j => src (i + j)) (t f).off n1
  when (0 < r) (o.kernel (setFile f ((t f).advance r.toNat)))
  iunlock o p ip
  o.kernel endOp
  return r

theorem filewriteLoop_succ (f : Fin NFILE) (ip : Ip) (src : Nat → UInt8) (n rounds i : Nat) :
    filewriteLoop o p f ip src n (rounds + 1) i =
      if i < n then do
        let r ← filewriteSection o p f ip src i (min (n - i) writeMax)
        if r < 0 then
          return i
        else do
          panicIf (r ≠ (min (n - i) writeMax : Nat)) .shortFilewrite
          filewriteLoop o p f ip src n rounds (i + min (n - i) writeMax)
      else
        return i := by
  rw [filewriteLoop]
  simp only [filewriteSection, Prog.bind_assoc, Prog.pure_bind]

end Section

section Disk

variable {P : Type} {sb : Superblock} {ds : Nat} {f : Fin NFILE} {ip : Ip} {i : Nat} {v : View}
  {c : FsState P}

/-- Between two transactions: `f` is open on inode `i`, a file without holes
below its size that no one has locked. -/
structure OpenFile (sb : Superblock) (ds : Nat) (f : Fin NFILE) (ip : Ip) (i : Nat) (v : View)
    (c : FsState P) : Prop where
  st : St sb ds c.kernel c.copy v [] c
  type : (c.kernel.ftable f).type = .inode
  inode : (c.kernel.ftable f).ip = some ip
  off : (c.kernel.ftable f).off < 2 ^ 32
  ref : 1 ≤ (c.kernel.icache ip).ref
  lock : (c.kernel.icache ip).lock = none
  dev : (c.kernel.icache ip).dev = 1
  inum : (c.kernel.icache ip).inum = i
  range : i < sb.ninodes
  copy : (c.kernel.icache ip).valid = true → c.copy ip = v.ino i
  ledger : Ledger sb v
  alloc : (v.ino i).type ≠ 0
  notDev : (v.ino i).type ≠ T_DEV
  full : ∀ m < blocks (v.ino i).size, v.blockAt sb i m ≠ 0

/-- `f->off` -/
def FsState.off (c : FsState P) (f : Fin NFILE) : Nat := (c.kernel.ftable f).off

variable {p : P}

/-- The entry of the inode while the transaction works on it. -/
def Kernel.locking (k : Kernel P) (p : P) (ip : Ip) : Kernel P :=
  { k.setEntry ip { k.icache ip with lock := some p, valid := true } with
    outstanding := k.outstanding + 1 }

variable {c' : FsState P} {v' v'' : View} {src : Nat → UInt8} {off m : Nat}

theorem OpenFile.locked (h : OpenFile sb ds f ip i v c)
    (hst : St sb ds (c.kernel.locking p ip) (set c.copy ip (v.ino i)) v [] c') :
    Locked sb ds (c.kernel.locking p ip) (set c.copy ip (v.ino i)) v ip i c' where
  st := hst
  dev := by
    unfold Kernel.locking
    rw [Kernel.setEntry_self]
    exact h.dev
  inum := by
    unfold Kernel.locking
    rw [Kernel.setEntry_self]
    exact h.inum
  range := h.range
  copy := set_self ..
  ledger := h.ledger
  alloc := h.alloc
  notDev := h.notDev
  full := h.full

variable [DecidableEq P]

/-- The end of the transaction gives the open file back. -/
theorem OpenFile.wp_finish (h : OpenFile sb ds f ip i v c) {x : File} (r : Int)
    (hx : x.type = .inode ∧ x.ip = some ip ∧ x.off < 2 ^ 32)
    (hlocked : Locked sb ds { c.kernel.locking p ip with ftable := set c.kernel.ftable f x }
      (set c.copy ip (v'.ino i)) v' ip i c') :
    wp (do
        iunlock diskOps p ip
        diskOps.kernel endOp
        return r)
      (fun r' c'' => r' = r ∧ OpenFile sb ds f ip i v' c'' ∧ c''.kernel.ftable f = x)
      (fun _ _ => False) c' := by
  have he : ({ c.kernel.locking p ip with ftable := set c.kernel.ftable f x } : Kernel P).icache
      ip = { c.kernel.icache ip with lock := some p, valid := true } := set_self ..
  rw [wp_bind]
  refine wp_mono_total (hlocked.st.wp_iunlock he h.ref rfl) ?_
  intro _ c₁ h₁
  rw [wp_bind]
  refine h₁.wp_kernel ?_
  intro c₂ h₂
  have hentry : c₂.kernel.icache ip =
      { c.kernel.icache ip with lock := none, valid := true } := by
    rw [h₂.kernel]
    exact set_self ..
  have hfile : c₂.kernel.ftable f = x := by
    rw [h₂.kernel]
    exact set_self ..
  refine ⟨rfl, ?_, hfile⟩
  exact
    { st := by
        rw [h₂.copy, h₂.kernel]
        exact h₂
      type := by rw [hfile]; exact hx.1
      inode := by rw [hfile]; exact hx.2.1
      off := by rw [hfile]; exact hx.2.2
      ref := by rw [hentry]; exact h.ref
      lock := by rw [hentry]
      dev := by rw [hentry]; exact h.dev
      inum := by rw [hentry]; exact h.inum
      range := h.range
      copy := by
        intro _
        rw [h₂.copy]
        exact set_self ..
      ledger := hlocked.ledger
      alloc := hlocked.alloc
      notDev := hlocked.notDev
      full := hlocked.full }

/-- One transaction writes its bytes at the offset and advances it, or finds
that they do not fit and changes nothing. -/
theorem wp_filewriteSection (hl : Layout sb ds) (h : OpenFile sb ds f ip i v c)
    (src : Nat → UInt8) (m : Nat) {n1 : Nat} (hn : n1 < 2 ^ 32) :
    wp (filewriteSection diskOps p f ip src m n1)
      (fun r c' =>
        (c.off f ≤ (v.ino i).size ∧ c.off f + n1 ≤ MAXFILE * BSIZE ∧ r = n1 ∧
          ∃ v', OpenFile sb ds f ip i v' c' ∧
            Stored sb v i (fun j => src (m + j)) (c.off f) n1 v' ∧
            c'.off f = c.off f + n1) ∨
        (¬ (c.off f ≤ (v.ino i).size ∧ c.off f + n1 ≤ MAXFILE * BSIZE) ∧ r = -1 ∧
          OpenFile sb ds f ip i v c' ∧ c'.off f = c.off f))
      (fun e c' => NoBlocks e c' ∧ ¬ v.Room sb i (c.off f) n1) c := by
  obtain rfl := h.inum
  have hsize := size_le_of_full h.full
  unfold filewriteSection
  rw [wp_bind]
  refine h.st.wp_kernel fun c₁ h₁ => ?_
  rw [wp_bind]
  refine wp_mono_total (h₁.wp_ilock hl (e := c.kernel.icache ip) rfl h.ref h.lock h.dev h.range
    h.alloc h.copy) ?_
  intro _ c₂ h₂
  rw [wp_bind]
  refine h₂.wp_kernel fun c₃ h₃ => ?_
  have hlocked := h.locked h₃
  rw [wp_bind]
  by_cases hok : c.off f ≤ (v.ino (c.kernel.icache ip).inum).size ∧
      c.off f + n1 ≤ MAXFILE * BSIZE
  · refine wp_mono (hlocked.wp_writei hl _ (Nat.succ_pos _) h.off hn hok.1 hok.2) ?_
      (fun _ _ he => he)
    rintro r c₄ ⟨rfl, v', hlocked', hstored⟩
    rw [set_set] at hlocked'
    have hadvance : ((c.kernel.ftable f).advance n1).off = c.off f + n1 := by
      unfold File.advance FsState.off
      apply Nat.mod_eq_of_lt
      have hmax := hok.2
      unfold FsState.off MAXFILE NDIRECT NINDIRECT BSIZE at *
      omega
    have hlt : ((c.kernel.ftable f).advance n1).off < 2 ^ 32 := Nat.mod_lt _ (by decide)
    rw [wp_bind, wp_when]
    constructor
    · intro _
      refine hlocked'.st.wp_kernel fun c₅ h₅ => ?_
      have hfinish := h.wp_finish (p := p) (x := (c.kernel.ftable f).advance n1) n1
        ⟨h.type, h.inode, hlt⟩ { hlocked' with st := h₅ }
      refine wp_mono_total hfinish ?_
      rintro r c' ⟨rfl, hopen, hfile⟩
      refine Or.inl ⟨hok.1, hok.2, rfl, v', hopen, hstored, ?_⟩
      unfold FsState.off at *
      rw [hfile, hadvance]
    · intro hnone
      obtain rfl : n1 = 0 := by omega
      have hfinish := h.wp_finish (p := p) (x := c.kernel.ftable f) (0 : Nat)
        ⟨h.type, h.inode, h.off⟩ (by rw [set_eta]; exact hlocked')
      refine wp_mono_total hfinish ?_
      rintro r c' ⟨rfl, hopen, hfile⟩
      refine Or.inl ⟨hok.1, hok.2, rfl, v', hopen, hstored, ?_⟩
      unfold FsState.off
      rw [hfile, Nat.add_zero]
  · have hbad : (v.ino (c.kernel.icache ip).inum).size < c.off f ∨
        (c.off f + n1) % 2 ^ 32 < c.off f ∨ MAXFILE * BSIZE < c.off f + n1 := by omega
    have hrun := hlocked.writei_eq (p := p) (fun j => src (m + j)) (c.off f) n1
    rw [if_pos hbad] at hrun
    refine wp_of_run hrun ?_
    rw [wp_bind, wp_when]
    refine ⟨fun hneg => by omega, fun _ => ?_⟩
    have hfinish := h.wp_finish (p := p) (x := c.kernel.ftable f) (-1)
      ⟨h.type, h.inode, h.off⟩ (by rw [set_eta]; exact hlocked)
    refine wp_mono_total hfinish ?_
    rintro r c' ⟨rfl, hopen, hfile⟩
    refine Or.inr ⟨hok, rfl, hopen, ?_⟩
    unfold FsState.off
    rw [hfile]

omit [DecidableEq P] in
theorem Stored.trans {len : Nat} (h : Stored sb v i src off m v')
    (h' : Stored sb v' i (fun x => src (m + x)) (off + m) len v'') :
    Stored sb v i src off (m + len) v'' where
  toOverlaid := h.toOverlaid.trans h'.toOverlaid
  inodes := fun j hj => (h'.inodes j hj).trans (h.inodes j hj)
  fields := by
    have hsize : (v'.ino i).size = max (v.ino i).size (off + m) := congrArg Meta.size h.fields
    have hmax : max (max (v.ino i).size (off + m)) (off + m + len) =
        max (v.ino i).size (off + (m + len)) := by omega
    rw [h'.fields, hsize, hmax, h.fields]

omit [DecidableEq P] in
theorem OpenFile.stored_zero (h : OpenFile sb ds f ip i v c) (src : Nat → UInt8)
    (hle : off ≤ (v.ino i).size) : Stored sb v i src off 0 v :=
  ⟨.refl h.ledger, fun _ _ => rfl, by rw [Nat.add_zero, Nat.max_eq_left hle]; rfl⟩

/-- The first `m` bytes of `src` were written at `off`, as one write does it. -/
def Wrote (sb : Superblock) (v : View) (i : Nat) (src : Nat → UInt8) (off m : Nat) (v' : View) :
    Prop :=
  m = 0 ∧ v' = v ∨
    0 < m ∧ off ≤ (v.ino i).size ∧ off + m ≤ MAXFILE * BSIZE ∧ Stored sb v i src off m v'

omit [DecidableEq P] in
theorem Wrote.add (h : OpenFile sb ds f ip i v c) {len : Nat} (hw : Wrote sb v i src off m v')
    (hlen : 0 < len) (hle : off + m ≤ (v'.ino i).size) (hmax : off + m + len ≤ MAXFILE * BSIZE)
    (hs : Stored sb v' i (fun x => src (m + x)) (off + m) len v'') :
    Wrote sb v i src off (m + len) v'' := by
  rcases hw with ⟨rfl, rfl⟩ | ⟨-, hle', -, hw⟩
  · exact Or.inr ⟨by omega, hle, by omega, (h.stored_zero src hle).trans hs⟩
  · exact Or.inr ⟨by omega, hle', by omega, hw.trans hs⟩

omit [DecidableEq P] in
/-- Two ways to write the same bytes leave the same files. -/
theorem Wrote.unique (hw : Wrote sb v i src off m v') (hs : Stored sb v i src off m v'')
    (hle : off ≤ (v.ino i).size) :
    (v''.ino i).fields = (v'.ino i).fields ∧ v''.byteAt sb = v'.byteAt sb := by
  rcases hw with ⟨rfl, rfl⟩ | ⟨-, -, -, hw⟩
  · constructor
    · rw [hs.fields, Nat.add_zero, Nat.max_eq_left hle]
      rfl
    · funext j o
      rw [hs.bytes, if_neg (by omega)]
  · constructor
    · rw [hs.fields, hw.fields]
    · funext j o
      rw [hs.bytes, hw.bytes]

theorem wp_filewriteLoop (hl : Layout sb ds) {v₀ : View} {c₀ : FsState P}
    (h₀ : OpenFile sb ds f ip i v₀ c₀) (src : Nat → UInt8) {n : Nat} (rounds : Nat)
    (hrounds : n - m ≤ rounds) (hm : m ≤ n) (hchunks : writeMax ∣ m ∨ m = n)
    (h : OpenFile sb ds f ip i v c) (hoff : c.off f = c₀.off f + m)
    (hw : Wrote sb v₀ i src (c₀.off f) m v) : wp (filewriteLoop diskOps p f ip src n rounds m)
      (fun r c' => ∃ v', r ≤ n ∧ (writeMax ∣ r ∨ r = n) ∧ OpenFile sb ds f ip i v' c' ∧
        c'.off f = c₀.off f + r ∧ Wrote sb v₀ i src (c₀.off f) r v')
      NoBlocks c := by
  induction rounds generalizing m v c with
  | zero =>
    exact ⟨v, hm, hchunks, h, hoff, hw⟩
  | succ rounds ih =>
    rw [filewriteLoop_succ]
    apply wp_ite
    · intro hlt
      have hmax : writeMax = 1536 := by decide
      generalize hn1 : min (n - m) writeMax = n1
      have hdvd : writeMax ∣ m := hchunks.resolve_right (by omega)
      rw [wp_bind]
      refine wp_mono (wp_filewriteSection hl h src m (by omega)) ?_
        (fun _ _ he => he.1)
      rintro r c' (⟨hle, hfit, rfl, v', h', hs, hoff'⟩ | ⟨-, rfl, h', hoff'⟩)
      · rw [if_neg (by omega), wp_bind, wp_panicIf]
        refine ⟨fun hne => absurd rfl hne, fun _ => ?_⟩
        rw [hoff] at hs hoff' hle hfit
        refine ih (by omega) (by omega) ?_ h' (by rw [hoff']; omega) ?_
        · by_cases hlast : n - m ≤ writeMax
          · exact Or.inr (by omega)
          · obtain rfl : writeMax = n1 := by omega
            exact Or.inl (Dvd.dvd.add hdvd (Nat.dvd_refl _))
        · exact hw.add h₀ (by omega) hle hfit hs
      · rw [if_pos (by omega)]
        exact ⟨v, hm, Or.inl hdvd, h', hoff'.trans hoff, hw⟩
    · intro hge
      exact ⟨v, hm, hchunks, h, hoff, hw⟩

omit [DecidableEq P] in
theorem OpenFile.congr (h : OpenFile sb ds f ip i v c) (h' : St sb ds c.kernel c.copy v [] c') :
    OpenFile sb ds f ip i v c' := by
  have hk := h'.kernel
  have hc := h'.copy
  exact
    { st := by rw [hk, hc]; exact h'
      type := by rw [hk]; exact h.type
      inode := by rw [hk]; exact h.inode
      off := by rw [hk]; exact h.off
      ref := by rw [hk]; exact h.ref
      lock := by rw [hk]; exact h.lock
      dev := by rw [hk]; exact h.dev
      inum := by rw [hk]; exact h.inum
      range := h.range
      copy := by rw [hk, hc]; exact h.copy
      ledger := h.ledger
      alloc := h.alloc
      notDev := h.notDev
      full := h.full }

/-- `filewrite` of `n` bytes ends with the file as one `writei` of its first
`m` bytes leaves it and the offset `m` further on, where `m` is `n` if the call
succeeds, and otherwise a number of whole pieces. -/
theorem wp_filewrite (hl : Layout sb ds) (h : OpenFile sb ds f ip i v c) (src : Nat → UInt8)
    (n : Nat) (pipewrite : Int) :
    wp (filewrite diskOps p f src n pipewrite)
      (fun r c' => ∃ m v', OpenFile sb ds f ip i v' c' ∧ c'.off f = c.off f + m ∧
        Wrote sb v i src (c.off f) m v' ∧ m ≤ n ∧ (r = n ∧ m = n ∨ r = -1 ∧ writeMax ∣ m))
      NoBlocks c := by
  unfold filewrite
  rw [wp_bind]
  refine h.st.wp_kernel fun c₁ h₁ => ?_
  have hopen := h.congr h₁
  have hoff : c₁.off f = c.off f + 0 := by
    unfold FsState.off
    rw [h₁.kernel, Nat.add_zero]
  refine wp_ite ?_ ?_
  · intro _
    exact ⟨0, v, hopen, hoff, Or.inl ⟨rfl, rfl⟩, Nat.zero_le n, Or.inr ⟨rfl, Nat.dvd_zero _⟩⟩
  · intro _
    rw [h.type, h.inode, wp_bind]
    refine wp_mono (wp_filewriteLoop hl h src n (Nat.sub_le _ _) (Nat.zero_le _)
      (Or.inl (Nat.dvd_zero _)) hopen hoff (Or.inl ⟨rfl, rfl⟩)) ?_ (fun _ _ he => he)
    rintro m c' ⟨v', hle, hchunks, h', hoff', hw⟩
    refine ⟨m, v', h', hoff', hw, hle, ?_⟩
    by_cases hm : m = n
    · rw [if_pos hm]
      exact Or.inl ⟨rfl, hm⟩
    · rw [if_neg hm]
      exact Or.inr ⟨rfl, hchunks.resolve_right hm⟩

/-- A call that returns `n` leaves the file and the offset as one `writei` of
all the bytes does; a call that returns -1 has written a prefix made of whole
pieces and nothing else. -/
theorem filewrite_chunks_invisible (hl : Layout sb ds) (h : OpenFile sb ds f ip i v c)
    (src : Nat → UInt8) {n : Nat} (hn : n < 2 ^ 31) (pipewrite : Int) :
    wp (filewrite diskOps p f src n pipewrite)
      (fun r c' => ∃ m v', OpenFile sb ds f ip i v' c' ∧ m ≤ n ∧
        (r = n ∧ m = n ∨ r = -1 ∧ writeMax ∣ m) ∧ c'.off f = c.off f + m ∧
        (v'.ino i).fields = { (v.ino i).fields with
          size := if m = 0 then (v.ino i).size else max (v.ino i).size (c.off f + m) } ∧
        (∀ o, v'.byteAt sb i o =
          if c.off f ≤ o ∧ o < c.off f + m then src (o - c.off f) else v.byteAt sb i o) ∧
        ∀ j, j ≠ i → v'.ino j = v.ino j ∧ v'.byteAt sb j = v.byteAt sb j)
      NoBlocks c ∧
    ∀ c', filewrite diskOps p f src n pipewrite c = (.ok (n : Int), c') →
      ∃ r c'' v' v'', filewriteSection diskOps p f ip src 0 n c = (.ok r, c'') ∧
        OpenFile sb ds f ip i v' c' ∧ OpenFile sb ds f ip i v'' c'' ∧
        (v''.ino i).fields = (v'.ino i).fields ∧ v''.byteAt sb = v'.byteAt sb ∧
        c''.off f = c'.off f := by
  have hmany := wp_filewrite (p := p) hl h src n pipewrite
  constructor
  · refine wp_mono hmany ?_ (fun _ _ he => he)
    rintro r c' ⟨m, v', h', hoff, hw, hle, hr⟩
    refine ⟨m, v', h', hle, hr, hoff, ?_⟩
    rcases hw with ⟨rfl, rfl⟩ | ⟨hpos, -, -, hs⟩
    · refine ⟨by rw [if_pos rfl]; rfl, ?_, fun j _ => ⟨rfl, rfl⟩⟩
      intro o
      rw [if_neg (by omega)]
    · refine ⟨by rw [if_neg (by omega), hs.fields], ?_, ?_⟩
      · intro o
        rw [hs.bytes]
        simp only [true_and]
      · intro j hj
        refine ⟨hs.inodes j hj, ?_⟩
        funext o
        rw [hs.bytes, if_neg (fun hc => hj hc.1)]
  · intro c' hrun
    obtain ⟨m, v', h', hoff, hw, -, hr⟩ := of_wp_ok hmany hrun
    obtain rfl : m = n := by
      rcases hr with ⟨-, hm⟩ | ⟨hneg, -⟩
      · exact hm
      · omega
    -- the blocks that the pieces found are there for the one write too
    have hroom : v.Room sb i (c.off f) m := by
      rcases hw with ⟨rfl, -⟩ | ⟨-, -, -, hs⟩
      · exact room_zero
      · exact hs.room h.ledger
    obtain ⟨r, c'', hone, hpost⟩ := exists_of_wp (wp_mono
      (wp_filewriteSection (p := p) hl h src 0 (by omega : m < 2 ^ 32)) (fun _ _ hq => hq)
      (fun _ _ he => he.2 hroom))
    simp only [Nat.zero_add] at hpost
    rcases hpost with ⟨hle, -, -, v'', h'', hs, hoff''⟩ | ⟨hbad, -, h'', hoff''⟩
    · obtain ⟨hfields, hbytes⟩ := hw.unique hs hle
      exact ⟨r, c'', v', v'', hone, h', h'', hfields, hbytes, by rw [hoff'', hoff]⟩
    · rcases hw with ⟨rfl, rfl⟩ | ⟨-, hle, hmax, -⟩
      · exact ⟨r, c'', v', v', hone, h', h'', rfl, rfl, by rw [hoff'', hoff, Nat.add_zero]⟩
      · exact absurd ⟨hle, hmax⟩ hbad

end Disk

def firstFile : Fin NFILE := ⟨0, by decide⟩

/-- The new file is open. -/
def openedFile : FsState Slot :=
  { booted with
    kernel := { booted.kernel.setEntry 1 { booted.kernel.icache 0 with inum := 2 } with
      ftable := Prog.set booted.kernel.ftable firstFile
        { type := .inode, ref := 1, readable := true, writable := true, pipe := none,
          ip := some 1, off := 0 } }
    disk := fileDisk }

theorem openedFile_open : OpenFile mkfsSuper FSSIZE firstFile 1 2 fileView openedFile where
  st := ⟨rfl, rfl, rfl, rfl, rfl, file_shows⟩
  type := rfl
  inode := rfl
  off := by decide
  ref := by decide
  lock := rfl
  dev := rfl
  inum := rfl
  range := by decide
  copy := fun hvalid => (nomatch hvalid)
  ledger := file_sound.ledger
  alloc := creating_file.alloc
  notDev := creating_file.notDev
  full := creating_file.full

/-- 2000 bytes are written in two transactions. -/
theorem filewrite_chunks_openedFile :
    ∃ c' v', filewrite diskOps (0 : Slot) firstFile (fun _ => 7) 2000 0 openedFile =
        (.ok 2000, c') ∧
      OpenFile mkfsSuper FSSIZE firstFile 1 2 v' c' ∧ c'.off firstFile = 2000 ∧
      v'.byteAt mkfsSuper 2 1999 = 7 := by
  obtain ⟨c, hc⟩ : ∃ c, c = openedFile := ⟨_, rfl⟩
  have hopen : OpenFile mkfsSuper FSSIZE firstFile 1 2 fileView c := hc ▸ openedFile_open
  have hzero : c.off firstFile = 0 := by rw [hc]; rfl
  have hok : (filewrite diskOps (0 : Slot) firstFile (fun _ => 7) 2000 0 c).1 = .ok 2000 := by
    rw [hc]
    decide +kernel
  rw [← hc]
  have hwp := (filewrite_chunks_invisible (p := (0 : Slot)) mkfs_layout hopen (fun _ => 7)
    (by decide : 2000 < 2 ^ 31) 0).1
  rcases hrun : filewrite diskOps (0 : Slot) firstFile (fun _ => 7) 2000 0 c with ⟨r, c'⟩
  obtain rfl : r = .ok 2000 := by rwa [hrun] at hok
  obtain ⟨m, v', hopen', -, hr, hoff, -, hbytes, -⟩ := of_wp_ok hwp hrun
  obtain rfl : m = 2000 := by
    rcases hr with ⟨-, hm⟩ | ⟨hneg, -⟩
    · exact hm
    · exact absurd hneg (by decide)
  rw [hzero] at hoff
  refine ⟨c', v', rfl, hopen', hoff, ?_⟩
  rw [hbytes, hzero, if_pos (by decide)]

end Xv6.Fs
