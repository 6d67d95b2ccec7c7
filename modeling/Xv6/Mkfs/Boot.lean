import Xv6.Fs.Names
import Xv6.Fs.Reading
import Xv6.Mkfs.Consistency

/-!
A kernel that has booted from the image which `mkfs` wrote finds every file of
it under its name, with the bytes of the input file.
-/

namespace Xv6.Mkfs

open Prog Fs

/-! ### The entries of the root directory -/

/-- The inode number and the name in entry `k`. -/
def rootEntry (names : List Name) (k : Nat) : Nat × Name :=
  if k = 0 then (ROOTINO, dot)
  else if k = 1 then (ROOTINO, dotdot)
  else (k, names.getD (k - 2) [])

theorem rootBytes_entry {names : List Name} {k j : Nat} (hk : k < names.length + 2)
    (hj : j < DIRENT) : (rootBytes names)[DIRENT * k + j]? =
      some (dirent (rootEntry names k).1 (rootEntry names k).2 j) := by
  have hget : ∀ inum name, (entryBytes inum name)[j]? = some (dirent inum name j) := by
    intro inum name
    rw [List.getElem?_eq_getElem (by rw [entryBytes, bytesOf_length]; exact hj)]
    simp [entryBytes]
  induction names using List.reverseRecOn with
  | nil =>
    unfold rootBytes
    rw [List.mapIdx_nil, List.flatten_nil, List.append_nil]
    have hlen : (entryBytes ROOTINO dot).length = DIRENT := rfl
    obtain rfl | rfl : k = 0 ∨ k = 1 := by
      change k < 2 at hk
      omega
    · rw [Nat.mul_zero, Nat.zero_add, List.getElem?_append_left (by rw [hlen]; exact hj), hget]
      rfl
    · rw [List.getElem?_append_right (by rw [hlen]; omega), hlen,
        show DIRENT * 1 + j - DIRENT = j by omega, hget]
      rfl
  | append_singleton names name ih =>
    have hlen := rootBytes_length names
    rw [List.length_append, List.length_singleton] at hk
    rw [rootBytes_concat]
    by_cases hold : k < names.length + 2
    · have hsame : rootEntry (names ++ [name]) k = rootEntry names k := by
        unfold rootEntry
        split
        · rfl
        · split
          · rfl
          · rw [List.getD_append _ _ _ _ (by omega)]
      rw [List.getElem?_append_left (by rw [hlen]; unfold DIRENT at *; omega), ih hold, hsame]
    · obtain rfl : k = names.length + 2 := by omega
      have hnew : rootEntry (names ++ [name]) (names.length + 2) = (names.length + 2, name) := by
        unfold rootEntry
        rw [if_neg (by omega), if_neg (by omega), Nat.add_sub_cancel]
        simp
      rw [List.getElem?_append_right (by rw [hlen]; omega), hlen,
        show DIRENT * (names.length + 2) + j - DIRENT * (names.length + 2) = j by omega, hget, hnew]

/-! ### The names of the files -/

/-- The name that the directory entry has room for. -/
def Input.cutName (f : Input) : Name := f.stripped.take DIRSIZ

theorem Input.stripped_subset (f : Input) {x : UInt8} (hx : x ∈ f.stripped) : x ∈ f.name := by
  unfold Input.stripped at hx
  split at hx
  · exact List.mem_of_mem_tail hx
  · exact hx

/-- The names are such that a path can mean each file. -/
structure Named (files : List Input) : Prop where
  slash : ∀ f ∈ files, slash ∉ f.name
  nonempty : ∀ f ∈ files, f.cutName ≠ []
  distinct : (files.map Input.cutName).Nodup
  noDots : ∀ f ∈ files, f.cutName ≠ dot ∧ f.cutName ≠ dotdot

section Lookup

variable {files : List Input} {disk : Nat → Block} {v : View}

/-- The bytes that a lookup reads at entry `k`. -/
theorem Written.entry (hv : Written files disk v) {k j : Nat} (hk : k < files.length + 2)
    (hj : j < DIRENT) : v.byteAt mkfsSuper ROOTINO (DIRENT * k + j) =
      dirent (rootEntry (files.map Input.stripped) k).1
        (rootEntry (files.map Input.stripped) k).2 j := by
  have hk' : k < (files.map Input.stripped).length + 2 := by rwa [List.length_map]
  have hget := rootBytes_entry hk' hj
  obtain ⟨hlt, hat⟩ := List.getElem?_eq_some_iff.mp hget
  have hbyte := hv.bytes 0 (Nat.succ_pos _) (DIRENT * k + j) hlt
  exact hbyte.trans hat

/-- The entries before that of a file are not taken for it. -/
theorem Named.entry_ne (hnamed : Named files) {i k : Nat} (hi : i < files.length) (hk : k < i + 2) :
    (rootEntry (files.map Input.stripped) k).2.take DIRSIZ ≠ files[i].cutName := by
  have hdots := hnamed.noDots _ (List.getElem_mem hi)
  unfold rootEntry
  split
  · exact hdots.1.symm
  · split
    · exact hdots.2.symm
    · have hk' : k - 2 < files.length := by omega
      dsimp only
      rw [List.getD_eq_getElem _ _ (by rwa [List.length_map]), List.getElem_map]
      intro heq
      have hl₁ : k - 2 < (files.map Input.cutName).length := by rwa [List.length_map]
      have hl₂ : i < (files.map Input.cutName).length := by rwa [List.length_map]
      have hcut : (files.map Input.cutName)[k - 2] = (files.map Input.cutName)[i] := by
        rw [List.getElem_map, List.getElem_map]
        exact heq
      have := (List.Nodup.getElem_inj_iff hnamed.distinct).mp hcut
      omega

theorem rootEntry_file (names : List Name) (i : Nat) :
    rootEntry names (i + 2) = (i + 2, names.getD i []) := by
  unfold rootEntry
  rw [if_neg (by omega), if_neg (by omega), Nat.add_sub_cancel]

theorem rootEntry_inum {files : List Input} (hfits : Fits files) {k : Nat}
    (hk : k < files.length + 2) :
    (rootEntry (files.map Input.stripped) k).1 ≠ 0 ∧
      (rootEntry (files.map Input.stripped) k).1 < 2 ^ 16 := by
  have hfew := hfits.few
  unfold NINODES at hfew
  unfold rootEntry
  split
  · decide
  · split
    · decide
    · dsimp only
      omega

theorem rootEntry_zero {files : List Input} (k : Nat) :
    (0 : UInt8) ∉ (rootEntry (files.map Input.stripped) k).2 := by
  unfold rootEntry
  split
  · decide
  · split
    · decide
    · dsimp only
      rw [List.getD_eq_getElem?_getD]
      cases h : (files.map Input.stripped)[k - 2]? with
      | none => simp
      | some name =>
        obtain ⟨f, -, rfl⟩ := List.mem_map.mp (List.mem_of_getElem? h)
        exact fun hx => f.name_ok (f.stripped_subset hx)

variable {k : Kernel Slot} {cp : Ip → Dinode} {c : FsState Slot} {p : Slot} {ip : Ip}

/-- `dirlookup` in the root directory finds a file by its name. -/
theorem Written.wp_dirlookup (hv : Written files disk v) (hfits : Fits files) (hnamed : Named files)
    {i : Nat} (hi : i < files.length) {name : Name} (hname : name.take DIRSIZ = files[i].cutName)
    (hzero : 0 ∉ name) (h : St mkfsSuper FSSIZE k cp v [] c) (hdev : (k.icache ip).dev = ROOTDEV)
    (hinum : (k.icache ip).inum = ROOTINO) (hcopy : cp ip = v.ino ROOTINO)
    (hfree : ∃ jp, (k.icache jp).ref = 0)
    (hnone : ∀ jp, 0 < (k.icache jp).ref → (k.icache jp).inum ≠ i + 2) :
    wp (dirlookup diskOps p ip name)
      (fun r c' => ∃ next, r = some (next, DIRENT * (i + 2)) ∧ (k.icache next).ref = 0 ∧
        St mkfsSuper FSSIZE (k.setEntry next { k.icache next with
          dev := ROOTDEV, inum := i + 2, ref := 1, valid := false }) cp v [] c')
      (fun _ _ => False) c := by
  have hdir : (v.ino ROOTINO).type = T_DIR := congrArg Meta.type hv.root
  have hsize : (v.ino ROOTINO).size = rootSize files := congrArg Meta.size hv.root
  have hfields : (c.copy ip).fields = (v.ino ROOTINO).fields := by rw [h.copy, hcopy]
  have hg : Growing mkfsSuper ROOTINO (blocksOf files) v :=
    ⟨hv.ledger, hv.filled, by rw [hdir]; decide, by rw [hdir]; decide, hv.wf _⟩
  have hentries : DIRENT * (files.length + 2) ≤ rootSize files := by
    unfold rootSize
    rw [rootBytes_length, List.length_map]
    unfold BSIZE
    omega
  unfold dirlookup
  rw [wp_bind]
  change wp (panicIf ((c.copy ip).fields.type ≠ T_DIR) _ >>= fun _ => _) _ _ c
  rw [hfields, wp_bind, wp_panicIf]
  refine ⟨fun hc => absurd hdir hc, fun _ => ?_⟩
  refine wp_first _ _ (fun j c' => j ≤ i + 2 ∧ St mkfsSuper FSSIZE k cp v [] c')
    ⟨Nat.zero_le _, h⟩ ?_ ?_
  · rintro j c₁ - - ⟨hj, h₁⟩
    have hin : j < files.length + 2 := by omega
    rw [wp_bind]
    refine wp_mono (h₁.wp_readi mkfs_layout hdev hinum (by decide) hcopy hg ?_ ?_) ?_
      fun _ _ hf => hf
    · rw [hsize]
      unfold DIRENT at *
      omega
    · change _ ≤ BSIZE * blocks (rootBytes (files.map Input.stripped)).length
      rw [rootBytes_length, List.length_map]
      unfold blocks BSIZE DIRENT
      omega
    · rintro ⟨r, de⟩ c₂ ⟨hr, hde, h₂⟩
      have hsame : ∀ x < DIRENT, de x = dirent (rootEntry (files.map Input.stripped) j).1
          (rootEntry (files.map Input.stripped) j).2 x :=
        fun x hx => (hde x hx).trans (hv.entry hin hx)
      have hnum := deInum_congr hsame
      rw [deInum_dirent (rootEntry_inum hfits hin).2] at hnum
      have hcmp := namecmp_deName_congr hsame (cbyte name)
      rw [show deName (dirent _ _) = cbyte (rootEntry (files.map Input.stripped) j).2 from
        funext (deName_dirent _ _)] at hcmp
      dsimp only at hr ⊢
      rw [wp_bind, wp_panicIf]
      refine ⟨fun hc => absurd hr hc, fun _ => ?_⟩
      rw [if_neg (by rw [hnum]; exact (rootEntry_inum hfits hin).1)]
      apply wp_ite
      · intro heq
        rw [hcmp, namecmp_eq_zero_iff hzero (rootEntry_zero j), hname] at heq
        obtain rfl : j = i + 2 := by
          by_contra hne
          exact hnamed.entry_ne hi (by omega) heq.symm
        rw [rootEntry_file] at hnum
        simp only [wp_bind]
        refine h₂.wp_entry rfl fun c₃ h₃ => h₃.wp_kernel ?_
        rw [hdev, hnum]
        refine wp_mono (wp_iget_new hfree hnone) ?_ fun _ _ hf => hf
        rintro next _ ⟨hunused, rfl⟩ c₄ h₄
        exact ⟨next, rfl, hunused, h₄⟩
      · intro hne
        refine ⟨?_, h₂⟩
        rw [hcmp, namecmp_eq_zero_iff hzero (rootEntry_zero j), hname] at hne
        have hji : j ≠ i + 2 := by
          rintro rfl
          refine hne ?_
          rw [rootEntry_file, List.getD_eq_getElem _ _ (by rwa [List.length_map]), List.getElem_map]
          rfl
        omega
  · rintro c' ⟨hle, -⟩
    exfalso
    change 0 + rounds (v.ino ROOTINO).size ≤ i + 2 at hle
    rw [hsize] at hle
    unfold rounds DIRENT at *
    omega

end Lookup

/-! ### The kernel -/

/-- A machine that has just booted from this disk. -/
def bootFrom (disk : Nat → Block) : FsState Slot := { booted with disk := disk }

/-- The file at a path: its fields, and what `readi` of its whole size returns. -/
def readFile (p : Slot) (path : List UInt8) : FsM Slot (Option (Meta × Int × (Nat → UInt8))) := do
  match ← namei diskOps p path with
  | none => return none
  | some ip => do
    ilock diskOps p ip
    let m ← diskOps.fields ip
    let (r, bytes) ← readi diskOps p ip 0 m.size
    return some (m, r, bytes)

section Boot

variable {files : List Input} {disk : Nat → Block} {v : View} {p : Slot}

theorem Written.booted (hv : Written files disk v) :
    St mkfsSuper FSSIZE Fs.booted.kernel Fs.booted.copy v [] (bootFrom disk) :=
  ⟨rfl, rfl, rfl, rfl, rfl, hv.shows⟩

/-- The entry of the root directory in the inode cache. -/
def rootCached (ref : Int) (lock : Option Slot) (valid : Bool) : Entry Slot where
  dev := ROOTDEV
  inum := ROOTINO
  ref := ref
  lock := lock
  valid := valid
  containerID := 0

/-- The tables after booting, with this entry for the root directory. -/
def withRoot (e : Entry Slot) : Kernel Slot := Fs.booted.kernel.setEntry 0 e

theorem withRoot_of_ne (e : Entry Slot) {jp : Ip} (hjp : jp ≠ 0) : (withRoot e).icache jp =
    { dev := 0, inum := 0, ref := 0, lock := none, valid := false, containerID := 0 } :=
  (Kernel.setEntry_of_ne _ _ hjp).trans (if_neg hjp)

section

variable {i : Nat} {name : Name} (hv : Written files disk v) (hfits : Fits files)
  (hnamed : Named files) (hi : i < files.length) (hname : name.take DIRSIZ = files[i].cutName)
  (hslash : slash ∉ name) (hzero : 0 ∉ name)
include hv hfits hnamed hi hname hslash hzero

/-- The lookup of a file's name gives a new entry of the inode cache for its
inode. -/
theorem Written.wp_namei :
    wp (namei diskOps p (slash :: name))
      (fun r c' => ∃ ip k cp, r = some ip ∧ (k.icache ip).dev = ROOTDEV ∧
        (k.icache ip).inum = i + 2 ∧ (k.icache ip).ref = 1 ∧ (k.icache ip).lock = none ∧
        (k.icache ip).valid = false ∧ St mkfsSuper FSSIZE k cp v [] c')
      (fun _ _ => False) (bootFrom disk) := by
  have hdir : (v.ino ROOTINO).type = T_DIR := congrArg Meta.type hv.root
  have hnlink : (v.ino ROOTINO).nlink = 1 := congrArg Meta.nlink hv.root
  have halloc : (v.ino ROOTINO).type ≠ 0 := by
    rw [hdir]
    decide
  have hne : name ≠ [] := by
    rintro rfl
    exact hnamed.nonempty _ (List.getElem_mem hi) hname.symm
  obtain ⟨cp, hcp⟩ : ∃ cp, cp = set Fs.booted.copy 0 (v.ino ROOTINO) := ⟨_, rfl⟩
  have hcopy : cp 0 = v.ino ROOTINO := by rw [hcp, set_self]
  unfold namei namex
  rw [wp_bind, if_pos (show peek (slash :: name) = slash from rfl), wp_bind]
  refine hv.booted.wp_kernel (wp_mono (wp_iget_cached 0 (by decide) ⟨rfl, rfl⟩ fun jp hjp => ?_)
    ?_ fun _ _ hf => hf)
  · exact congrArg Entry.ref (if_neg hjp)
  rintro _ _ ⟨rfl, rfl⟩ c₁ h₁
  replace h₁ : St mkfsSuper FSSIZE (withRoot (rootCached 2 none false)) _ v [] c₁ := h₁
  unfold namexLoop
  rw [skipelem_root hne hslash hzero]
  dsimp only
  rw [wp_bind]
  refine wp_mono (h₁.wp_ilock mkfs_layout (Kernel.setEntry_self ..) (by decide) rfl rfl
    (by decide) halloc (fun hvalid => by cases hvalid)) ?_ fun _ _ hf => hf
  intro _ c₂ h₂
  unfold withRoot at h₂
  rw [Kernel.setEntry_setEntry] at h₂
  replace h₂ : St mkfsSuper FSSIZE (withRoot (rootCached 2 (some p) true)) cp v [] c₂ := by
    rw [hcp]
    exact h₂
  have htype : (c₂.copy 0).fields.type = T_DIR := by
    rw [h₂.copy, hcopy]
    exact hdir
  rw [wp_bind]
  change wp (if (c₂.copy 0).fields.type ≠ T_DIR then _ else _) _ _ c₂
  rw [if_neg (not_not_intro htype), if_neg (by rintro ⟨hc, -⟩; cases hc), wp_bind]
  refine wp_mono (hv.wp_dirlookup hfits hnamed hi (by rw [List.take_take, Nat.min_self, hname])
    (fun hmem => hzero (List.mem_of_mem_take hmem)) h₂ rfl rfl hcopy
    ⟨1, congrArg Entry.ref (withRoot_of_ne _ (by decide))⟩ fun jp hpos => ?_) ?_ fun _ _ hf => hf
  · by_cases hjp : jp = 0
    · subst hjp
      change ROOTINO ≠ i + 2
      unfold ROOTINO
      omega
    · rw [withRoot_of_ne _ hjp] at hpos
      exact absurd hpos (by decide)
  rintro _ c₃ ⟨next, rfl, hunused, h₃⟩
  have hnext : next ≠ 0 := by
    rintro rfl
    cases hunused
  rw [withRoot_of_ne _ hnext] at h₃
  obtain ⟨k, hk⟩ : ∃ k, k = (withRoot (rootCached 2 (some p) true)).setEntry next
    { dev := ROOTDEV, inum := i + 2, ref := 1, lock := none, valid := false, containerID := 0 } :=
    ⟨_, rfl⟩
  rw [← hk] at h₃
  have hroot : k.icache 0 = rootCached 2 (some p) true := by
    rw [hk, Kernel.setEntry_of_ne _ _ hnext.symm]
    exact Kernel.setEntry_self ..
  have hfile : k.icache next =
      { dev := ROOTDEV, inum := i + 2, ref := 1, lock := none, valid := false,
        containerID := 0 } := by
    rw [hk]
    exact Kernel.setEntry_self ..
  dsimp only
  unfold iunlockput
  simp only [wp_bind]
  refine wp_mono (h₃.wp_iunlock hroot (by change (1 : Int) ≤ 2; decide) rfl) ?_ fun _ _ hf => hf
  intro _ c₄ h₄
  refine wp_mono (h₄.wp_iput (Kernel.setEntry_self ..) rfl
    (fun hc => absurd hc.2.1 (by rw [hcopy, hnlink]; decide))) ?_
    fun _ _ hf => hf
  intro _ c₅ h₅
  rw [Kernel.setEntry_setEntry] at h₅
  unfold namexLoop
  refine ⟨next, _, cp, rfl, ?_, ?_, ?_, ?_, ?_, h₅⟩
  all_goals rw [Kernel.setEntry_of_ne _ _ hnext, hfile]

theorem readFile_spec :
    wp (readFile p (slash :: name))
      (fun r _ => ∃ bytes, r = some (fileMeta (i + 1) files[i].contents.length,
        (files[i].contents.length : Int), bytes) ∧
        bytesOf bytes files[i].contents.length = files[i].contents)
      (fun _ _ => False) (bootFrom disk) := by
  have hfew := hfits.few
  have hrange : i + 2 < NINODES := by omega
  have hfields := hv.file i hi
  have htype : (v.ino (i + 2)).type = T_FILE := congrArg Meta.type hfields
  have hsize : (v.ino (i + 2)).size = files[i].contents.length := congrArg Meta.size hfields
  have hget : (contentsOf files)[i + 1]? = some files[i].contents := by
    unfold contentsOf
    rw [List.getElem?_cons_succ, List.getElem?_map, List.getElem?_eq_getElem hi]
    rfl
  have hblocks : blocksOf files (i + 2) = blocks files[i].contents.length := by
    unfold blocksOf
    rw [List.getD_eq_getElem?_getD, show i + 2 - 1 = i + 1 by omega, hget]
    rfl
  have hg : Growing mkfsSuper (i + 2) (blocksOf files) v :=
    ⟨hv.ledger, hv.filled, by rw [htype]; decide, by rw [htype]; decide, hv.wf _⟩
  unfold readFile
  rw [wp_bind]
  refine wp_mono (hv.wp_namei hfits hnamed hi hname hslash hzero) ?_ fun _ _ hf => hf
  rintro _ c₁ ⟨ip, k, cp, rfl, hdev, hinum, href, hlock, hvalid, h₁⟩
  dsimp only
  rw [wp_bind]
  refine wp_mono (h₁.wp_ilock mkfs_layout rfl (by rw [href]) hlock hdev
    (by rw [hinum]; exact hrange) (by rw [hinum, htype]; decide)
    (by rw [hvalid]; intro hc; cases hc)) ?_ fun _ _ hf => hf
  intro _ c₂ h₂
  rw [hinum] at h₂
  have hcopy : (c₂.copy ip).fields = fileMeta (i + 1) files[i].contents.length := by
    rw [h₂.copy, set_self, hfields]
  rw [wp_bind]
  change wp (readi diskOps p ip 0 (c₂.copy ip).fields.size >>= fun r => pure (some
    ((c₂.copy ip).fields, r.1, r.2))) _ _ c₂
  rw [hcopy, wp_bind]
  refine wp_mono (h₂.wp_readi mkfs_layout (n := files[i].contents.length) ?_ ?_ hrange
    (set_self ..) hg ?_ ?_)
    ?_ fun _ _ hf => hf
  · rw [Kernel.setEntry_self]
    exact hdev
  · rw [Kernel.setEntry_self]
  · rw [hsize, Nat.zero_add]
  · rw [hblocks]
    unfold blocks BSIZE
    omega
  · rintro ⟨r, bytes⟩ c₃ ⟨hr, hbytes, -⟩
    dsimp only at hr hbytes
    refine ⟨bytes, by rw [← hr], ?_⟩
    refine List.ext_getElem (bytesOf_length _ _) fun o ho ho' => ?_
    obtain ⟨hlt, hat⟩ := List.getElem?_eq_some_iff.mp hget
    have hbyte := hv.bytes (i + 1) hlt o (by rw [hat]; exact ho')
    rw [bytesOf_getElem, hbytes o ho', Nat.zero_add]
    refine hbyte.trans ?_
    simp only [hat]

end

end Boot

theorem kernel_reads_mkfs_files {files : List Input} (hfits : Fits files) (hnamed : Named files)
    (disk : Nat → Block) (p : Slot) :
    ∃ s, main files (start disk) = (.ok (), s) ∧
      ∀ i (hi : i < files.length) (name : Name), name.take DIRSIZ = files[i].cutName →
        slash ∉ name → 0 ∉ name →
        ∃ m bytes c, readFile p (slash :: name) (bootFrom s.disk) =
          (.ok (some (m, m.size, bytes)), c) ∧
          m.type = T_FILE ∧ m.nlink = 1 ∧ bytesOf bytes m.size = files[i].contents := by
  obtain ⟨s, v, hrun, hv⟩ := main_writes hfits hnamed.slash disk
  refine ⟨s, hrun, fun i hi name hname hslash hzero => ?_⟩
  have hread := readFile_spec (p := p) hv hfits hnamed hi hname hslash hzero
  unfold wp at hread
  split at hread
  · next r c hok =>
      obtain ⟨bytes, rfl, hbytes⟩ := hread
      exact ⟨_, bytes, c, hok, rfl, rfl, hbytes⟩
  · exact hread.elim

/-- A file of fourteen blocks, two of them behind the indirect block. -/
def longFile : Input where
  name := [95, 98]
  pieces := List.replicate 14 (List.replicate BSIZE 7)
  name_ok := by decide
  pieces_ok piece hp := by
    rw [List.eq_of_mem_replicate hp, List.length_replicate]
    decide

theorem kernel_reads_twoFiles :
    ∃ s, main [smallFile, longFile] (start fun _ => Bytes.zero) = (.ok (), s) ∧
      NDIRECT * BSIZE < longFile.contents.length ∧
      (∃ m bytes c, readFile 0 [slash, 97] (bootFrom s.disk) =
          (.ok (some (m, m.size, bytes)), c) ∧ bytesOf bytes m.size = [1]) ∧
      ∃ m bytes c, readFile 0 [slash, 98] (bootFrom s.disk) =
          (.ok (some (m, m.size, bytes)), c) ∧ bytesOf bytes m.size = longFile.contents := by
  have hfits : Fits [smallFile, longFile] := ⟨by decide, by decide +kernel, by decide +kernel⟩
  have hnamed : Named [smallFile, longFile] := ⟨by decide, by decide, by decide, by decide⟩
  obtain ⟨s, hrun, hread⟩ := kernel_reads_mkfs_files hfits hnamed (fun _ => Bytes.zero) 0
  obtain ⟨m, bytes, c, hok, -, -, hbytes⟩ :=
    hread 0 (by decide) [97] (by decide) (by decide) (by decide)
  obtain ⟨m', bytes', c', hok', -, -, hbytes'⟩ :=
    hread 1 (by decide) [98] (by decide) (by decide) (by decide)
  exact ⟨s, hrun, by decide +kernel, ⟨m, bytes, c, hok, hbytes⟩, m', bytes', c', hok', hbytes'⟩

end Xv6.Mkfs
