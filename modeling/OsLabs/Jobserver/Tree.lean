/-
# Directory trees

What `dfs` sees of the file system: the entries of a directory in the order in which `readdir` returns them,
"." and ".." among them. A directory may refuse `chdir` or `opendir`.

`scan` is the loop over the entries, with its two arrays. The other functions count what a traversal finds
below a directory: the programs with their paths, the processes that it creates, the levels.

Key definitions: `scan`, `Dir.programs`, `Dir.forks`, `Dir.height`, `Smooth`, `Open`.
-/
import Mathlib

namespace OsLabs
namespace Jobserver

/-- The names that lead from the directory of the start to a file. -/
abbrev Path := List String

/-- A directory entry, by what `lstat` says of it: a symbolic link is not followed. -/
inductive Entry
  | dir (name : String) (enters opens : Bool) (entries : List Entry)
  | reg (name : String) (xusr xgrp xoth : Bool)
  | other (name : String)

def Entry.name : Entry → String
  | .dir name .. | .reg name .. | .other name => name

structure Dir where
  opens : Bool
  entries : List Entry

/-- A directory to which `dfs` descends. -/
structure Subdir where
  name : String
  enters : Bool
  dir : Dir

def isDots (name : String) : Bool := name = "." || name = ".."

/-- The loop over the entries, with `subdirs` and `progs` so far. -/
def scan : List Entry → List Subdir → List String → List Subdir × List String
  | [], subdirs, progs => (subdirs, progs)
  | e :: es, subdirs, progs =>
    if isDots e.name then scan es subdirs progs
    else
      match e with
      | .dir name enters opens entries => scan es (subdirs ++ [⟨name, enters, ⟨opens, entries⟩⟩]) progs
      | .reg name xusr xgrp xoth =>
        if xusr || xgrp || xoth then scan es subdirs (progs ++ [name]) else scan es subdirs progs
      | .other _ => scan es subdirs progs

def Dir.subdirs (d : Dir) : List Subdir := (scan d.entries [] []).1

def Dir.progs (d : Dir) : List String := (scan d.entries [] []).2

/-! ### What is below a directory -/

mutual

/-- The programs that a traversal finds: all of them, or those of the directories that it can enter and open. -/
def Entry.programs (all : Bool) (path : Path) : Entry → Multiset Path
  | .dir name enters opens entries =>
    if isDots name then 0 else if all || (enters && opens) then programsOf all (path ++ [name]) entries else 0
  | .reg name xusr xgrp xoth => if isDots name then 0 else if xusr || xgrp || xoth then {path ++ [name]} else 0
  | .other _ => 0

def programsOf (all : Bool) (path : Path) : List Entry → Multiset Path
  | [] => 0
  | e :: es => e.programs all path + programsOf all path es

end

mutual

/-- The processes that a traversal creates: one for each directory and two for each program. -/
def Entry.forks : Entry → ℕ
  | .dir name enters opens entries => if isDots name then 0 else 1 + if enters && opens then forksOf entries else 0
  | .reg name xusr xgrp xoth => if isDots name then 0 else if xusr || xgrp || xoth then 2 else 0
  | .other _ => 0

def forksOf : List Entry → ℕ
  | [] => 0
  | e :: es => e.forks + forksOf es

end

mutual

def Entry.height : Entry → ℕ
  | .dir name _ _ entries => if isDots name then 0 else 1 + heightOf entries
  | .reg .. | .other _ => 0

def heightOf : List Entry → ℕ
  | [] => 0
  | e :: es => max e.height (heightOf es)

end

def Dir.programs (all : Bool) (path : Path) (d : Dir) : Multiset Path :=
  if all || d.opens then programsOf all path d.entries else 0

def Dir.forks (d : Dir) : ℕ := if d.opens then forksOf d.entries else 0

/-- The levels of the tree. -/
def Dir.height (d : Dir) : ℕ := 1 + heightOf d.entries

def Subdir.programs (all : Bool) (path : Path) (sub : Subdir) : Multiset Path :=
  if all || sub.enters then sub.dir.programs all (path ++ [sub.name]) else 0

def Subdir.forks (sub : Subdir) : ℕ := if sub.enters then sub.dir.forks else 0

/-- No directory that the traversal meets refuses `chdir`. -/
inductive Smooth : Dir → Prop
  | mk {d : Dir} (enters : d.opens = true → ∀ sub ∈ d.subdirs, sub.enters = true)
      (below : d.opens = true → ∀ sub ∈ d.subdirs, Smooth sub.dir) : Smooth d

/-- No directory refuses `chdir` or `opendir`. -/
inductive Open : Dir → Prop
  | mk {d : Dir} (opens : d.opens = true) (enters : ∀ sub ∈ d.subdirs, sub.enters = true)
      (below : ∀ sub ∈ d.subdirs, Open sub.dir) : Open d

/-! ### The loop finds what there is -/

/-- What the loop adds to `subdirs` for an entry. -/
def Entry.subdir : Entry → List Subdir
  | .dir name enters opens entries => if isDots name then [] else [⟨name, enters, ⟨opens, entries⟩⟩]
  | .reg .. | .other _ => []

/-- What the loop adds to `progs`. -/
def Entry.prog : Entry → List String
  | .reg name xusr xgrp xoth => if isDots name then [] else if xusr || xgrp || xoth then [name] else []
  | .dir .. | .other _ => []

theorem scan_eq : ∀ (es : List Entry) (subdirs : List Subdir) (progs : List String),
    scan es subdirs progs = (subdirs ++ es.flatMap Entry.subdir, progs ++ es.flatMap Entry.prog)
  | [], _, _ => by simp [scan]
  | e :: es, subdirs, progs => by
    unfold scan
    cases e with
    | dir name enters opens entries =>
      by_cases hdots : isDots name = true <;> simp [Entry.name, Entry.subdir, Entry.prog, hdots, scan_eq es]
    | reg name xusr xgrp xoth =>
      by_cases hdots : isDots name = true
      · simp [Entry.name, Entry.subdir, Entry.prog, hdots, scan_eq es]
      · by_cases hx : (xusr || xgrp || xoth) = true <;>
          simp [Entry.name, Entry.subdir, Entry.prog, hdots, hx, scan_eq es]
    | other name => by_cases hdots : isDots name = true <;> simp [Entry.name, Entry.subdir, Entry.prog, hdots, scan_eq es]

theorem Dir.subdirs_eq (d : Dir) : d.subdirs = d.entries.flatMap Entry.subdir := by simp [Dir.subdirs, scan_eq]

theorem Dir.progs_eq (d : Dir) : d.progs = d.entries.flatMap Entry.prog := by simp [Dir.progs, scan_eq]

/-- The paths of programs in a directory. -/
def files (path : Path) (progs : List String) : Multiset Path := (progs.map fun name => path ++ [name] : List Path)

@[simp] theorem files_nil (path : Path) : files path [] = 0 := rfl

@[simp] theorem files_cons (path : Path) (name : String) (progs : List String) :
    files path (name :: progs) = {path ++ [name]} + files path progs := rfl

@[simp] theorem files_append (path : Path) (progs progs' : List String) :
    files path (progs ++ progs') = files path progs + files path progs' := by simp [files]

section

variable {all : Bool} {path : Path} {d : Dir}

theorem Entry.programs_eq (e : Entry) :
    e.programs all path = (e.subdir.map (Subdir.programs all path)).sum + files path e.prog := by
  cases e with
  | dir name enters opens entries =>
    by_cases hdots : isDots name = true
    · simp [Entry.programs, Entry.subdir, Entry.prog, hdots]
    · cases all <;> cases enters <;> cases opens <;>
        simp [Entry.programs, Entry.subdir, Entry.prog, Subdir.programs, Dir.programs, hdots]
  | reg name xusr xgrp xoth =>
    by_cases hdots : isDots name = true
    · simp [Entry.programs, Entry.subdir, Entry.prog, hdots]
    · by_cases hx : (xusr || xgrp || xoth) = true <;> simp [Entry.programs, Entry.subdir, Entry.prog, hdots, hx]
  | other name => simp [Entry.programs, Entry.subdir, Entry.prog]

theorem programsOf_eq : ∀ es : List Entry, programsOf all path es =
    ((es.flatMap Entry.subdir).map (Subdir.programs all path)).sum + files path (es.flatMap Entry.prog)
  | [] => by simp [programsOf]
  | e :: es => by
    rw [programsOf, Entry.programs_eq, programsOf_eq es]
    simp only [List.flatMap_cons, List.map_append, List.sum_append, files_append]
    abel

/-- What is found below a directory, by what the loop has put into the arrays. -/
theorem Dir.programs_eq (hopen : (all || d.opens) = true) :
    d.programs all path = (d.subdirs.map (Subdir.programs all path)).sum + files path d.progs := by
  rw [Dir.programs, if_pos hopen, programsOf_eq, d.subdirs_eq, d.progs_eq]

theorem Entry.forks_eq (e : Entry) :
    e.forks = (e.subdir.map fun sub => 1 + sub.forks).sum + 2 * e.prog.length := by
  cases e with
  | dir name enters opens entries =>
    by_cases hdots : isDots name = true
    · simp [Entry.forks, Entry.subdir, Entry.prog, hdots]
    · cases enters <;> cases opens <;> simp [Entry.forks, Entry.subdir, Entry.prog, Subdir.forks, Dir.forks, hdots]
  | reg name xusr xgrp xoth =>
    by_cases hdots : isDots name = true
    · simp [Entry.forks, Entry.subdir, Entry.prog, hdots]
    · by_cases hx : (xusr || xgrp || xoth) = true <;> simp [Entry.forks, Entry.subdir, Entry.prog, hdots, hx]
  | other name => simp [Entry.forks, Entry.subdir, Entry.prog]

theorem forksOf_eq : ∀ es : List Entry, forksOf es =
    ((es.flatMap Entry.subdir).map fun sub => 1 + sub.forks).sum + 2 * (es.flatMap Entry.prog).length
  | [] => rfl
  | e :: es => by
    rw [forksOf, Entry.forks_eq, forksOf_eq es]
    simp only [List.flatMap_cons, List.map_append, List.sum_append, List.length_append]
    omega

theorem Dir.forks_eq (hopen : d.opens = true) :
    d.forks = (d.subdirs.map fun sub => 1 + sub.forks).sum + 2 * d.progs.length := by
  rw [Dir.forks, if_pos hopen, forksOf_eq, d.subdirs_eq, d.progs_eq]

theorem Entry.height_sub {e : Entry} {sub : Subdir} (h : sub ∈ e.subdir) : sub.dir.height ≤ e.height := by
  cases e with
  | dir name enters opens entries =>
    by_cases hdots : isDots name = true
    · simp [Entry.subdir, hdots] at h
    · simp only [Entry.subdir, hdots, Bool.false_eq_true, if_false, List.mem_singleton] at h
      subst h
      simp [Entry.height, hdots, Dir.height]
  | reg => simp [Entry.subdir] at h
  | other => simp [Entry.subdir] at h

theorem heightOf_mem {e : Entry} : ∀ {es : List Entry}, e ∈ es → e.height ≤ heightOf es
  | e' :: es, h => by
    rw [heightOf]
    rcases List.mem_cons.mp h with rfl | h
    · exact le_max_left _ _
    · exact (heightOf_mem h).trans (le_max_right _ _)

theorem Dir.height_sub {sub : Subdir} (h : sub ∈ d.subdirs) : 1 + sub.dir.height ≤ d.height := by
  rw [d.subdirs_eq] at h
  obtain ⟨e, he, hsub⟩ := List.mem_flatMap.mp h
  exact Nat.add_le_add_left ((Entry.height_sub hsub).trans (heightOf_mem he)) 1

/-! ### The directories that can be entered -/

theorem Open.smooth (h : Open d) : Smooth d := by
  induction h with
  | mk _ enters _ ih => exact ⟨fun _ => enters, fun _ => ih⟩

/-- If nothing is refused, the traversal finds all there is. -/
theorem Open.programs_eq (h : Open d) : ∀ path, d.programs false path = d.programs true path := by
  induction h with
  | @mk d hopens enters _ ih =>
    intro path
    rw [Dir.programs_eq (by simpa using hopens), Dir.programs_eq (by simp)]
    congr 2
    refine List.map_congr_left fun sub hsub => ?_
    simp [Subdir.programs, enters sub hsub, ih sub hsub]

/-- Otherwise it meets a directory that refuses, or one below which it does. -/
theorem not_smooth (h : ¬ Smooth d) : d.opens = true ∧ ∃ sub ∈ d.subdirs, sub.enters = false ∨ ¬ Smooth sub.dir := by
  by_contra hn
  push Not at hn
  exact h ⟨fun hopen sub hsub => (Bool.not_eq_false _).mp (hn hopen sub hsub).1, fun hopen sub hsub => (hn hopen sub hsub).2⟩

end

end Jobserver
end OsLabs
