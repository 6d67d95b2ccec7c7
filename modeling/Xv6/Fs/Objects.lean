import Xv6.Lib.Transition
import Xv6.Fs.Kernel

/-!
What open files refer to, and the rules their history has to keep: a file is
opened when it is not open, and closed once, with the object it was opened
with; the page of a pipe is allocated when it is free and freed once, when no
open file refers to it any more. The functions of `file.c` and `pipe.c` are
shown to keep the rules in `Fs/Descriptors.lean`.
-/

namespace Xv6.Fs

open Prog Transition

/-- What a file refers to; a file of type `FD_NONE` refers to nothing. -/
def File.object (x : File) : Option Object :=
  match x.type, x.pipe, x.ip with
  | .pipe, some page, _ => some (.pipe page x.writable)
  | .inode, _, some ip => some (.inode ip)
  | _, _, _ => none

def Object.page : Object → Option Page
  | .inode _ => none
  | .pipe page _ => some page

/-- The open files and the pages of pipes. -/
structure Monitor where
  live : Fin NFILE → Option Object
  pages : Page → Bool

def Monitor.start : Monitor := ⟨fun _ => none, fun _ => false⟩

/-- An event that breaks a rule has no successor. -/
def Monitor.step (m : Monitor) : Event → Option Monitor
  | .opened f obj =>
    if m.live f = none ∧ (obj.page.all m.pages) = true then
      some { m with live := set m.live f (some obj) }
    else none
  | .closed f obj =>
    if m.live f = some obj then some { m with live := set m.live f none } else none
  | .kalloc page =>
    if m.pages page = false then some { m with pages := set m.pages page true } else none
  | .kfree page =>
    if m.pages page = true ∧ ∀ f, (m.live f).bind Object.page ≠ some page then
      some { m with pages := set m.pages page false }
    else none

/-- The flag of one end of a pipe. -/
def PipeEnds.isOpen (ends : PipeEnds) (writable : Bool) : Bool :=
  if writable then ends.writeopen else ends.readopen

def PipeEnds.closeEnd (ends : PipeEnds) (writable : Bool) : PipeEnds :=
  if writable then { ends with writeopen := false } else { ends with readopen := false }

/-- The open files `ob` agree with the flags of the pipes and with the
history. -/
structure Objects (ob : Fin NFILE → Option Object) (pipes : Page → Option PipeEnds)
    (history : List Event) : Prop where
  inj : ∀ f g page w, ob f = some (.pipe page w) → ob g = some (.pipe page w) → f = g
  flag : ∀ page ends w, pipes page = some ends →
    (ends.isOpen w = true ↔ ∃ f, ob f = some (.pipe page w))
  used : ∀ page ends, pipes page = some ends → ∃ w, ends.isOpen w = true
  page : ∀ f page w, ob f = some (.pipe page w) → (pipes page).isSome = true
  monitor : Transition.exec Monitor.step .start history = some ⟨ob, fun page => (pipes page).isSome⟩

namespace Objects

variable {ob : Fin NFILE → Option Object} {pipes : Page → Option PipeEnds}
  {history : List Event} {f : Fin NFILE} {ip : Ip} {page : Page} {w : Bool}

theorem start : Objects (fun _ => none) (fun _ => none) [] :=
  ⟨nofun, nofun, nofun, nofun, rfl⟩

section

variable (h : Objects ob pipes history)
include h

/-- A change of an entry that neither was nor becomes an end of a pipe. -/
theorem set_inode {obj : Option Object} (hold : ∀ page w, ob f ≠ some (.pipe page w))
    (hnew : ∀ page w, obj ≠ some (.pipe page w)) {e : Event}
    (hstep : Monitor.step ⟨ob, fun page => (pipes page).isSome⟩ e =
      some ⟨set ob f obj, fun page => (pipes page).isSome⟩) :
    Objects (set ob f obj) pipes (history ++ [e]) := by
  have hpipe (g : Fin NFILE) (page : Page) (w : Bool) :
      set ob f obj g = some (.pipe page w) ↔ ob g = some (.pipe page w) := by
    by_cases hg : g = f
    · subst hg
      simp [hold, hnew]
    · rw [set_of_ne _ _ hg]
  exact
    { inj := by
        intro g g' page w hg hg'
        rw [hpipe] at hg hg'
        exact h.inj g g' page w hg hg'
      flag := by
        intro page ends w hp
        simp only [hpipe]
        exact h.flag page ends w hp
      used := h.used
      page := by
        intro g page w hg
        rw [hpipe] at hg
        exact h.page g page w hg
      monitor := exec_concat_some.mpr ⟨_, h.monitor, hstep⟩ }

theorem openInode (hf : ob f = none) :
    Objects (set ob f (some (.inode ip))) pipes (history ++ [.opened f (.inode ip)]) :=
  h.set_inode (by simp [hf]) (by simp) (by simp [Monitor.step, hf, Object.page])

theorem closeInode (hf : ob f = some (.inode ip)) :
    Objects (set ob f none) pipes (history ++ [.closed f (.inode ip)]) :=
  h.set_inode (by simp [hf]) (by simp) (by simp [Monitor.step, hf])

theorem openPipe {g : Fin NFILE} (hf : ob f = none) (hg : ob g = none) (hne : g ≠ f)
    (hpage : pipes page = none) :
    Objects (set (set ob f (some (.pipe page false))) g (some (.pipe page true)))
      (set pipes page (some ⟨true, true⟩))
      (history ++ [.kalloc page] ++ [.opened f (.pipe page false)] ++
        [.opened g (.pipe page true)]) := by
  have hnone (f' : Fin NFILE) (w : Bool) : ob f' ≠ some (.pipe page w) := by
    intro hf'
    have := h.page f' page w hf'
    rw [hpage] at this
    cases this
  -- the new page has exactly these two files, the others have the files they had
  have hnew (f' : Fin NFILE) (w : Bool) :
      set (set ob f (some (.pipe page false))) g (some (.pipe page true)) f' =
        some (.pipe page w) ↔ f' = if w then g else f := by
    by_cases h1 : f' = g
    · subst h1
      cases w <;> simp [hne]
    · by_cases h2 : f' = f
      · subst h2
        rw [set_of_ne _ _ h1]
        cases w <;> simp [h1]
      · rw [set_of_ne _ _ h1, set_of_ne _ _ h2]
        cases w <;> simp [h1, h2, hnone]
  have hold (f' : Fin NFILE) (page' : Page) (w : Bool) (hp : page' ≠ page) :
      set (set ob f (some (.pipe page false))) g (some (.pipe page true)) f' =
        some (.pipe page' w) ↔ ob f' = some (.pipe page' w) := by
    by_cases h1 : f' = g
    · subst h1
      simp [hg, Ne.symm hp]
    · rw [set_of_ne _ _ h1]
      by_cases h2 : f' = f
      · subst h2
        simp [hf, Ne.symm hp]
      · rw [set_of_ne _ _ h2]
  refine ⟨?_, ?_, ?_, ?_, ?_⟩
  · intro f' g' page' w hf' hg'
    by_cases hp : page' = page
    · subst hp
      rw [hnew] at hf' hg'
      rw [hf', hg']
    · rw [hold _ _ _ hp] at hf' hg'
      exact h.inj f' g' page' w hf' hg'
  · intro page' ends w hends
    by_cases hp : page' = page
    · subst hp
      rw [set_self] at hends
      cases hends
      simp only [hnew, exists_eq, iff_true]
      cases w <;> rfl
    · rw [set_of_ne _ _ hp] at hends
      simp only [hold _ _ _ hp]
      exact h.flag page' ends w hends
  · intro page' ends hends
    by_cases hp : page' = page
    · subst hp
      rw [set_self] at hends
      cases hends
      exact ⟨true, rfl⟩
    · rw [set_of_ne _ _ hp] at hends
      exact h.used page' ends hends
  · intro f' page' w hf'
    by_cases hp : page' = page
    · subst hp
      simp
    · rw [hold _ _ _ hp] at hf'
      rw [set_of_ne _ _ hp]
      exact h.page f' page' w hf'
  · have hpages : (fun page' => (set pipes page (some ⟨true, true⟩) page').isSome) =
        set (fun page' => (pipes page').isSome) page true := by
      funext page'
      by_cases hp : page' = page
      · subst hp
        simp
      · simp [set_of_ne _ _ hp]
    rw [hpages]
    have halloc : Transition.exec Monitor.step .start (history ++ [.kalloc page]) =
        some ⟨ob, set (fun page' => (pipes page').isSome) page true⟩ :=
      exec_concat_some.mpr ⟨_, h.monitor, by simp [Monitor.step, hpage]⟩
    have hread : Transition.exec Monitor.step .start
        (history ++ [.kalloc page] ++ [.opened f (.pipe page false)]) =
        some ⟨set ob f (some (.pipe page false)),
          set (fun page' => (pipes page').isSome) page true⟩ :=
      exec_concat_some.mpr ⟨_, halloc, by simp [Monitor.step, hf, Object.page]⟩
    exact exec_concat_some.mpr ⟨_, hread, by
      simp [Monitor.step, hg, set_of_ne _ _ hne, Object.page]⟩

end

theorem isOpen_closeEnd (ends : PipeEnds) (w v : Bool) :
    (ends.closeEnd w).isOpen v = (decide (v ≠ w) && ends.isOpen v) := by
  cases w <;> cases v <;> rfl

/-- One end of a pipe is closed; its page is kept while the other is open. -/
theorem closePipe (h : Objects ob pipes history) (hf : ob f = some (.pipe page w))
    {ends : PipeEnds} (hends : pipes page = some ends) :
    Objects (set ob f none)
      (set pipes page
        (if (ends.closeEnd w).isOpen (!w) = true then some (ends.closeEnd w) else none))
      (history ++ [.closed f (.pipe page w)] ++
        if (ends.closeEnd w).isOpen (!w) = true then [] else [.kfree page]) := by
  have hother : (ends.closeEnd w).isOpen (!w) = ends.isOpen (!w) := by
    cases w <;> simp [isOpen_closeEnd]
  have hpipe (g : Fin NFILE) (page' : Page) (v : Bool) :
      set ob f none g = some (.pipe page' v) ↔
        ob g = some (.pipe page' v) ∧ ¬ (page' = page ∧ v = w) := by
    by_cases hg : g = f
    · subst hg
      simp [hf]
      intro h1 h2
      exact ⟨h1.symm, h2.symm⟩
    · rw [set_of_ne _ _ hg]
      refine ⟨fun hg' => ⟨hg', ?_⟩, And.left⟩
      rintro ⟨rfl, rfl⟩
      exact hg (h.inj g f _ _ hg' hf)
  rw [hother]
  refine ⟨?_, ?_, ?_, ?_, ?_⟩
  · intro g g' page' v hg hg'
    rw [hpipe] at hg hg'
    exact h.inj g g' page' v hg.1 hg'.1
  · intro page' ends' v hends'
    simp only [hpipe]
    by_cases hp : page' = page
    · subst hp
      rw [set_self] at hends'
      split at hends'
      · cases hends'
        rw [isOpen_closeEnd]
        have := h.flag page' ends v hends
        by_cases hv : v = w
        · simp [hv]
        · simp [hv, this]
      · cases hends'
    · rw [set_of_ne _ _ hp] at hends'
      simp only [hp, false_and, not_false_iff, and_true]
      exact h.flag page' ends' v hends'
  · intro page' ends' hends'
    by_cases hp : page' = page
    · subst hp
      rw [set_self] at hends'
      split at hends'
      · next hopen =>
          cases hends'
          exact ⟨!w, hother.trans hopen⟩
      · cases hends'
    · rw [set_of_ne _ _ hp] at hends'
      exact h.used page' ends' hends'
  · intro g page' v hg
    rw [hpipe] at hg
    by_cases hp : page' = page
    · subst hp
      have hv : v = !w := by
        have : v ≠ w := fun hv => hg.2 ⟨rfl, hv⟩
        cases v <;> cases w <;> simp_all
      have hopen := (h.flag page' ends v hends).mpr ⟨g, hg.1⟩
      rw [set_self, if_pos (hv ▸ hopen)]
      rfl
    · rw [set_of_ne _ _ hp]
      exact h.page g page' v hg.1
  · have hclosed : Transition.exec Monitor.step .start (history ++ [.closed f (.pipe page w)]) =
        some ⟨set ob f none, fun page => (pipes page).isSome⟩ :=
      exec_concat_some.mpr ⟨_, h.monitor, by simp [Monitor.step, hf]⟩
    split
    · next hopen =>
        rw [List.append_nil, hclosed]
        congr 2
        funext page'
        by_cases hp : page' = page
        · subst hp
          simp [hends]
        · rw [set_of_ne _ _ hp]
    · next hshut =>
        refine exec_concat_some.mpr ⟨_, hclosed, ?_⟩
        -- no file refers to the other end, so none refers to the page
        have hgone (g : Fin NFILE) : ((set ob f none) g).bind Object.page ≠ some page := by
          intro hg
          obtain ⟨obj, hobj, hpage⟩ := Option.bind_eq_some_iff.mp hg
          cases obj with
          | inode ip => cases hpage
          | pipe page' v =>
            cases hpage
            rw [hpipe] at hobj
            have hv : v = !w := by
              have : v ≠ w := fun hv => hobj.2 ⟨rfl, hv⟩
              cases v <;> cases w <;> simp_all
            exact hshut (hv ▸ (h.flag page ends v hends).mpr ⟨g, hobj.1⟩)
        simp only [Monitor.step, hends, Option.isSome_some, true_and]
        rw [if_pos hgone]
        congr 2
        funext page'
        by_cases hp : page' = page
        · subst hp
          simp
        · simp [set_of_ne _ _ hp]

end Objects

end Xv6.Fs
