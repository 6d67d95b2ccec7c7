import Xv6.Shell.Strings

/-!
`runcmd` of `sh.c`: what the shell does with the tree of a line. The processes that
it forks are followed to the program that each of them runs; what matters is which
descriptors that program finds open, and what they refer to.
-/

namespace Xv6.Shell

/-- A place in the tree of a line: the way up to the root. -/
abbrev Place := List Bool

/-- What a descriptor refers to. A pipe is known by the place of its command. -/
inductive Obj where
  | console
  | file (name : Word) (mode : Nat)
  | readEnd (pipe : Place)
  | writeEnd (pipe : Place)
deriving DecidableEq

abbrev Fds := Nat → Option Obj

def close (fds : Fds) (fd : Nat) : Fds := Function.update fds fd none

/-- The kernel takes the lowest descriptor that is free. -/
def fdalloc (fds : Fds) (o : Obj) : Option (Nat × Fds) :=
  ((List.range NOFILE).find? fun fd => (fds fd).isNone).map fun fd =>
    (fd, Function.update fds fd (some o))

def dup (fds : Fds) (fd : Nat) : Fds :=
  match fds fd with
  | none => fds
  | some o =>
    match fdalloc fds o with
    | none => fds
    | some (_, fds) => fds

/-- Whether the calls made for the command at a place succeed. -/
structure Answers where
  opened : Place → Bool
  pipe : Place → Bool
  fork : Place → Bool
  /-- The second `fork` of a pipe. -/
  forkRight : Place → Bool

/-- A call of `exec`: the words of the command and the open descriptors. -/
structure Program where
  args : List Word
  fds : Fds

/-- The programs that the process which runs the command, and those it forks, come to. -/
def runcmd (k : Answers) : Place → Cmd → Fds → List Program
  | _, .exec args, fds => if args = [] then [] else [⟨args, fds⟩]
  | q, .redir cmd file mode fd, fds =>
    if k.opened q then
      match fdalloc (close fds fd) (.file file mode) with
      | none => []
      | some (_, fds) => runcmd k (true :: q) cmd fds
    else []
  | q, .list left right, fds =>
    if k.fork q then runcmd k (true :: q) left fds ++ runcmd k (false :: q) right fds else []
  | q, .pipe left right, fds =>
    if k.pipe q then
      match fdalloc fds (.readEnd q) with
      | none => []
      | some (p0, fds) =>
        match fdalloc fds (.writeEnd q) with
        | none => []
        | some (p1, fds) =>
          if k.fork q then
            runcmd k (true :: q) left (close (close (dup (close fds 1) p1) p0) p1) ++
              if k.forkRight q then
                runcmd k (false :: q) right (close (close (dup (close fds 0) p0) p0) p1)
              else []
          else []
    else []
  | q, .back cmd, fds => if k.fork q then runcmd k (true :: q) cmd fds else []

/-- `while((fd = open("console", O_RDWR)) >= 0)` in `main`; `found` says of each call
of `open` whether there is a console. -/
def openConsole : List Bool → Fds → Fds
  | true :: found, fds =>
    match fdalloc fds .console with
    | none => fds
    | some (fd, fds) => if 3 ≤ fd then close fds fd else openConsole found fds
  | _, fds => fds

/-! ### What a line means -/

/-- The three descriptors that a program expects. -/
structure Std where
  stdin : Obj
  stdout : Obj
  stderr : Obj

/-- A table with nothing above the standard descriptors. -/
def low (a b c : Option Obj) : Fds
  | 0 => a
  | 1 => b
  | 2 => c
  | _ => none

def Std.fds (io : Std) : Fds := low (some io.stdin) (some io.stdout) (some io.stderr)

/-- The console stands in for what is closed. -/
def Std.of (fds : Fds) : Std :=
  ⟨(fds 0).getD .console, (fds 1).getD .console, (fds 2).getD .console⟩

def Std.redirect (io : Std) (fd : Nat) (o : Obj) : Std :=
  if fd = 0 then { io with stdin := o } else { io with stdout := o }

/-- The programs of a line, each with where it reads from and writes to. -/
def meaning (k : Answers) : Place → Cmd → Std → List (List Word × Std)
  | _, .exec args, io => if args = [] then [] else [(args, io)]
  | q, .redir cmd file mode fd, io =>
    if k.opened q then meaning k (true :: q) cmd (io.redirect fd (.file file mode)) else []
  | q, .list left right, io =>
    if k.fork q then meaning k (true :: q) left io ++ meaning k (false :: q) right io else []
  | q, .pipe left right, io =>
    if k.pipe q ∧ k.fork q then
      meaning k (true :: q) left { io with stdout := .writeEnd q } ++
        if k.forkRight q then meaning k (false :: q) right { io with stdin := .readEnd q } else []
    else []
  | q, .back cmd, io => if k.fork q then meaning k (true :: q) cmd io else []

/-- The redirections are of the standard input and the standard output. -/
def Cmd.Redirects : Cmd → Prop
  | .exec _ => True
  | .redir cmd _ _ fd => (fd = 0 ∨ fd = 1) ∧ cmd.Redirects
  | .pipe left right | .list left right => left.Redirects ∧ right.Redirects
  | .back cmd => cmd.Redirects

/-! ### The parser builds such trees -/

section Trees

variable {c : Cmd} {ts : List Tok} {rs : List Redir}

theorem Redirs.fd (h : Redirs ts rs) : ∀ r ∈ rs, r.fd = 0 ∨ r.fd = 1 := by
  induction h with
  | nil => simp
  | lt w _ ih | gt w _ ih | gtgt w _ ih => simpa using ih

theorem Args.fd {ws : List Word} (h : Args ts ws rs) : ∀ r ∈ rs, r.fd = 0 ∨ r.fd = 1 := by
  induction h with
  | nil => simp
  | cons w hredirs _ ih =>
    intro r hr
    exact (List.mem_append.mp hr).elim (hredirs.fd r) (ih r)

theorem Cmd.Redirects.wrap (hc : c.Redirects) (hrs : ∀ r ∈ rs, r.fd = 0 ∨ r.fd = 1) :
    (c.wrap rs).Redirects := by
  induction rs generalizing c with
  | nil => exact hc
  | cons r rs ih =>
    exact ih (c := .redir c r.file r.mode r.fd) ⟨hrs r List.mem_cons_self, hc⟩
      fun r' hr' => hrs r' (List.mem_cons_of_mem r hr')

theorem Cmd.Redirects.backs (hc : c.Redirects) (n : Nat) : (c.backs n).Redirects := by
  induction n with
  | zero => exact hc
  | succ n ih => exact ih

theorem Derives.redirects {n : Part} (h : Derives n ts c) : c.Redirects := by
  induction h with
  | line n _ ih => exact ih.backs n
  | semi n _ _ ih ih' => exact ⟨ih.backs n, ih'⟩
  | pipe _ ih => exact ih
  | bar _ _ ih ih' => exact ⟨ih, ih'⟩
  | block _ hredirs ih => exact ih.wrap hredirs.fd
  | exec hredirs hargs _ =>
    refine Cmd.Redirects.wrap trivial fun r hr => ?_
    exact (List.mem_append.mp hr).elim (hredirs.fd r) (hargs.fd r)

end Trees

/-! ### The descriptors -/

section Descriptors

variable (io : Std)

/-- What is opened after `close(fd)` takes the place of `fd`. -/
theorem fdalloc_closed (o : Obj) {fd : Nat} (hfd : fd = 0 ∨ fd = 1) :
    fdalloc (close io.fds fd) o = some (fd, (io.redirect fd o).fds) := by
  have hfds : Function.update (close io.fds fd) fd (some o) = (io.redirect fd o).fds := by
    funext n
    obtain rfl | rfl := hfd <;> rcases n with _ | _ | _ | n <;> rfl
  rw [← hfds]
  obtain rfl | rfl := hfd <;> rfl

/-- The table after `pipe`. -/
def Std.piped (q : Place) : Fds :=
  Function.update (Function.update io.fds 3 (some (.readEnd q))) 4 (some (.writeEnd q))

/-- The end of the pipe that a side keeps takes the place of `fd`. -/
theorem piped_fds (q : Place) (fd p : Nat) {o : Obj} (hfd : fd = 0 ∨ fd = 1)
    (hdup : dup (close (io.piped q) fd) p = Function.update (close (io.piped q) fd) fd (some o)) :
    close (close (dup (close (io.piped q) fd) p) 3) 4 = (io.redirect fd o).fds := by
  rw [hdup]
  funext n
  obtain rfl | rfl := hfd <;> rcases n with _ | _ | _ | _ | _ | n <;> rfl

end Descriptors

/-- `runcmd` in a process with the three descriptors. -/
theorem runcmd_eq (k : Answers) (q : Place) {c : Cmd} (hc : c.Redirects) (io : Std) :
    runcmd k q c io.fds = (meaning k q c io).map fun r => ⟨r.1, r.2.fds⟩ := by
  induction c generalizing q io with
  | exec args =>
    unfold runcmd meaning
    split <;> rfl
  | redir cmd file mode fd ih =>
    unfold runcmd meaning
    rw [fdalloc_closed io _ hc.1]
    split
    · exact ih _ hc.2 _
    · rfl
  | list left right ih ih' =>
    unfold runcmd meaning
    split
    · rw [List.map_append, ih _ hc.1, ih' _ hc.2]
    · rfl
  | pipe left right ih ih' =>
    have hpipe : fdalloc io.fds (.readEnd q) =
        some (3, Function.update io.fds 3 (some (.readEnd q))) := rfl
    have hpipe' : fdalloc (Function.update io.fds 3 (some (.readEnd q))) (.writeEnd q) =
        some (4, io.piped q) := rfl
    have hleft := piped_fds io q 1 4 (Or.inr rfl) rfl
    have hright := piped_fds io q 0 3 (Or.inl rfl) rfl
    simp only [runcmd, meaning, hpipe, hpipe', hleft, hright, ih _ hc.1, ih' _ hc.2]
    cases k.pipe q <;> cases k.fork q <;> cases k.forkRight q <;> simp [Std.redirect]
  | back cmd ih =>
    unfold runcmd meaning
    split
    · exact ih _ hc io
    · rfl

/-- Where the three descriptors are open, `main` opens no more. -/
theorem openConsole_fds (found : List Bool) (io : Std) : openConsole found io.fds = io.fds := by
  rcases found with _ | ⟨_ | _, found⟩
  · rfl
  · rfl
  · have hopen : openConsole (true :: found) io.fds =
        close (Function.update io.fds 3 (some .console)) 3 := rfl
    rw [hopen]
    funext n
    rcases n with _ | _ | _ | _ | n <;> rfl

theorem openConsole_next (fds : Fds) (fd : Nat) (h : fdalloc fds .console =
      some (fd, Function.update fds fd (some .console))) (hlt : fd < 3) {a b c : Option Obj}
    (hlow : Function.update fds fd (some .console) = low a b c) (found : List Bool) :
    openConsole (true :: found) fds = openConsole found (low a b c) := by
  simp only [openConsole, h, hlow]
  rw [if_neg (by omega)]

/-- `main` makes sure of the three descriptors, if it can. -/
theorem openConsole_eq {fds : Fds} {found : List Bool} (h : ∀ fd, 3 ≤ fd → fds fd = none)
    (hfound : [true, true, true] <+: found ∨ ∀ fd, fd < 3 → fds fd ≠ none) :
    openConsole found fds = (Std.of fds).fds := by
  have hlow : fds = low (fds 0) (fds 1) (fds 2) := by
    funext n
    rcases n with _ | _ | _ | n
    · rfl
    · rfl
    · rfl
    · exact h _ (by omega)
  have h0 (b c : Option Obj) := openConsole_next (low none b c) 0
    (a := some .console) (b := b) (c := c) rfl (by decide)
    (by funext n; rcases n with _ | _ | _ | n <;> rfl)
  have h1 (a : Obj) (c : Option Obj) := openConsole_next (low (some a) none c) 1
    (a := some a) (b := some .console) (c := c) rfl (by decide)
    (by funext n; rcases n with _ | _ | _ | n <;> rfl)
  have h2 (a b : Obj) := openConsole_next (low (some a) (some b) none) 2
    (a := some a) (b := some b) (c := some .console) rfl (by decide)
    (by funext n; rcases n with _ | _ | _ | n <;> rfl)
  have hdone (found : List Bool) (a b c : Obj) :
      openConsole found (low (some a) (some b) (some c)) = low (some a) (some b) (some c) :=
    openConsole_fds found ⟨a, b, c⟩
  have hopen (found : List Bool) (a b c : Option Obj) :
      openConsole (true :: true :: true :: found) (low a b c) = (Std.of (low a b c)).fds := by
    cases a <;> cases b <;> cases c <;> simp only [h0, h1, h2, hdone] <;> rfl
  rcases hfound with ⟨more, rfl⟩ | hall
  · rw [hlow]
    exact hopen more _ _ _
  · obtain ⟨a, ha⟩ := Option.ne_none_iff_exists'.mp (hall 0 (by decide))
    obtain ⟨b, hb⟩ := Option.ne_none_iff_exists'.mp (hall 1 (by decide))
    obtain ⟨c, hc⟩ := Option.ne_none_iff_exists'.mp (hall 2 (by decide))
    rw [hlow, ha, hb, hc, hdone]
    rfl

/-- **Every program gets its three descriptors and no others.** Whatever line the
shell accepts, in a shell that was started with its three descriptors or could open
the console, and whichever of its other system calls fail: the programs that are
started are those of the line, each one reads, writes and complains where the tree of
the line says, and has no other descriptor open, in particular no end of a pipe that
would keep a reader waiting. -/
theorem runcmd_connects (s : List UInt8) (hz : 0 ∉ s) (c : Cmd) (buf : List UInt8)
    (hparse : parsecmd s = .ok (c, buf)) (k : Answers) (fds : Fds)
    (hfds : ∀ fd, 3 ≤ fd → fds fd = none) (found : List Bool)
    (hfound : [true, true, true] <+: found ∨ ∀ fd, fd < 3 → fds fd ≠ none) :
    runcmd k [] c (openConsole found fds) =
      (meaning k [] c (Std.of fds)).map fun r => ⟨r.1, r.2.fds⟩ := by
  rw [openConsole_eq hfds hfound]
  exact runcmd_eq k [] ((parsecmd_ok_iff hz c buf).mp hparse).1.redirects _

/-- The line `ls|wc` in a shell without open descriptors. -/
theorem runcmd_connects_pipe : ∃ c buf, parsecmd (chars "ls|wc") = .ok (c, buf) ∧
    runcmd ⟨fun _ => true, fun _ => true, fun _ => true, fun _ => true⟩ [] c
      (openConsole [true, true, true, true] fun _ => none) =
      [⟨[⟨0, 2⟩], Std.fds ⟨.console, .writeEnd [], .console⟩⟩,
        ⟨[⟨3, 5⟩], Std.fds ⟨.readEnd [], .console, .console⟩⟩] := by
  have hparse : parsecmd (chars "ls|wc") = .ok (.pipe (.exec [⟨0, 2⟩]) (.exec [⟨3, 5⟩]),
      nulterminate (.pipe (.exec [⟨0, 2⟩]) (.exec [⟨3, 5⟩])) (chars "ls|wc" ++ [0])) := by
    rfl
  refine ⟨_, _, hparse, ?_⟩
  rw [runcmd_connects _ (by decide) _ _ hparse _ _ (fun _ _ => rfl) [true, true, true, true]
    (Or.inl ⟨[true], rfl⟩)]
  rfl

end Xv6.Shell
