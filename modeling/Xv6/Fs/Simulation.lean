import Xv6.Fs.Fresh

/-!
Every run of system calls on the disk is a run on the table of files: the same
results, and at its end a disk that holds the files of the table.
-/

namespace Xv6.Fs

open Prog

/-- The table of files on the machine that has just booted. -/
def bootedTables : AState Slot where
  kernel := booted.kernel
  files := fileOf mkfsSuper freshView
  ninodes := NINODES

theorem booted_implements : Implements mkfsSuper FSSIZE booted bootedTables := by
  have hvalid : ∀ ip, (booted.kernel.icache ip).valid = false := by decide
  have hone : ∀ ip, 0 < (booted.kernel.icache ip).ref → ip = 0 := by decide
  refine ⟨freshView,
    { st :=
        { kernel := rfl
          copy := rfl
          super := rfl
          disksize := rfl
          held := rfl
          shows := fresh_shows }
      sound := fresh_sound
      ninodes := rfl
      range := by decide
      unique := ?_
      copy := ?_
      files := fun _ _ => rfl }⟩
  · intro ip jp hi hj _
    rw [hone ip hi, hone jp hj]
  · intro ip _ hv
    exact absurd hv (by simp [bootedTables, hvalid ip])

/-- The first process makes a file, writes three bytes to it and gives it a second
name. Its child takes the first name away and finds the file under the second. -/
def renamed : List (Slot × Call) :=
  [(0, .open [97] (O_CREATE ||| O_RDWR)), (0, .write 0 (fun i => i.toUInt8) 3 0 0),
    (0, .link [97] [98]), (0, .fork ⟨true, true⟩), (1, .unlink [97]), (1, .open [98] O_RDWR),
    (1, .open [97] O_RDWR)]

end Xv6.Fs
