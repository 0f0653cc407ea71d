/-
# Files

Names lead to inodes, and inodes have contents. An open file is an inode and a position in it. Opening creates a file
if there is none and `creat` is given, and empties the one there is if `trunc` is; a write replaces what is at the
position and goes on behind it, and what lies beyond it stays.

Key definitions: `Fs`, `Fs.openFile`, `Fs.write`, `overwrite`.
-/
import Mathlib

namespace OsLabs
namespace Files

open Function (update)

variable {N B : Type*}

/-- Inodes from `fresh` on are not in use. -/
structure Fs (N B : Type*) where
  dir : N → Option ℕ
  data : ℕ → List B
  fresh : ℕ
  used : ∀ n i, dir n = some i → i < fresh

structure Flags where
  creat : Bool
  trunc : Bool

structure Handle where
  ino : ℕ
  pos : ℕ

/-- A write of `bytes` at the position `pos` of a file that is at least that long. -/
def overwrite (old : List B) (pos : ℕ) (bytes : List B) : List B := old.take pos ++ bytes ++ old.drop (pos + bytes.length)

namespace Fs

variable (fs : Fs N B)

def empty : Fs N B where
  dir _ := none
  data _ := []
  fresh := 0
  used _ i h := absurd h.symm (Option.some_ne_none i)

def read (n : N) : Option (List B) := (fs.dir n).map fs.data

def truncate (i : ℕ) : Fs N B := { fs with data := update fs.data i [] }

def write (h : Handle) (bytes : List B) : Fs N B × Handle :=
  ({ fs with data := update fs.data h.ino (overwrite (fs.data h.ino) h.pos bytes) }, { h with pos := h.pos + bytes.length })

variable [DecidableEq N]

def create (n : N) : Fs N B where
  dir := update fs.dir n (some fs.fresh)
  data := update fs.data fs.fresh []
  fresh := fs.fresh + 1
  used m i h := by
    by_cases hm : m = n
    · rw [hm, Function.update_self] at h
      cases h
      exact Nat.lt_succ_self _
    · rw [Function.update_of_ne hm] at h
      exact (fs.used m i h).trans (Nat.lt_succ_self _)

def unlink (n : N) : Fs N B where
  dir := update fs.dir n none
  data := fs.data
  fresh := fs.fresh
  used m i h := by
    by_cases hm : m = n
    · rw [hm, Function.update_self] at h
      cases h
    · rw [Function.update_of_ne hm] at h
      exact fs.used m i h

/-- `open`, where nothing forbids it. -/
def openFile (flags : Flags) (n : N) : Option (Fs N B × Handle) :=
  match fs.dir n with
  | some i => some (if flags.trunc then fs.truncate i else fs, ⟨i, 0⟩)
  | none => if flags.creat then some (fs.create n, ⟨fs.fresh, 0⟩) else none

end Fs

/-! ### Contents -/

section

variable {old a b : List B} {pos : ℕ}

theorem overwrite_nil (old : List B) (pos : ℕ) : overwrite old pos [] = old := by
  rw [overwrite, List.append_nil, List.length_nil, Nat.add_zero, List.take_append_drop]

theorem overwrite_zero (old bytes : List B) : overwrite old 0 bytes = bytes ++ old.drop bytes.length := by
  rw [overwrite, List.take_zero, List.nil_append, Nat.zero_add]

/-- Two writes in a row are one. -/
theorem overwrite_append (h : pos ≤ old.length) :
    overwrite (overwrite old pos a) (pos + a.length) b = overwrite old pos (a ++ b) := by
  have hlen : (old.take pos ++ a).length = pos + a.length := by
    rw [List.length_append, List.length_take, Nat.min_eq_left h]
  have htake : (overwrite old pos a).take (pos + a.length) = old.take pos ++ a := by
    rw [overwrite, ← hlen, List.take_left]
  have hdrop : (overwrite old pos a).drop (pos + a.length + b.length) = old.drop (pos + a.length + b.length) := by
    calc (overwrite old pos a).drop (pos + a.length + b.length)
        = ((old.take pos ++ a) ++ old.drop (pos + a.length)).drop ((old.take pos ++ a).length + b.length) := by
          rw [overwrite, hlen]
      _ = (old.drop (pos + a.length)).drop b.length := List.drop_length_add_append _
      _ = old.drop (pos + a.length + b.length) := List.drop_drop
  rw [overwrite, htake, hdrop, overwrite, List.append_assoc (old.take pos), List.length_append, Nat.add_assoc]

/-- What is written at the start of a file is all there is in it if the file was not longer. -/
theorem overwrite_eq_iff (old bytes : List B) : overwrite old 0 bytes = bytes ↔ old.length ≤ bytes.length := by
  rw [overwrite_zero, List.append_right_eq_self, List.drop_eq_nil_iff]

end

/-! ### Files -/

namespace Fs

/-- The names that are there still lead to what they led to. -/
def Keeps (fs fs' : Fs N B) : Prop := ∀ n i, fs.dir n = some i → fs'.dir n = some i ∧ fs'.data i = fs.data i

theorem Keeps.refl (fs : Fs N B) : fs.Keeps fs := fun _ _ h => ⟨h, rfl⟩

theorem Keeps.trans {fs fs' fs'' : Fs N B} (h : fs.Keeps fs') (h' : fs'.Keeps fs'') : fs.Keeps fs'' := by
  intro n i hdir
  obtain ⟨hdir', hdata⟩ := h n i hdir
  obtain ⟨hdir'', hdata'⟩ := h' n i hdir'
  exact ⟨hdir'', hdata'.trans hdata⟩

variable [DecidableEq N] {fs fs' : Fs N B} {flags : Flags} {n : N} {h : Handle}

theorem openFile_some {i : ℕ} (hdir : fs.dir n = some i) (htrunc : flags.trunc = false) :
    fs.openFile flags n = some (fs, ⟨i, 0⟩) := by
  unfold openFile
  rw [hdir]
  simp only [htrunc, Bool.false_eq_true, if_false]

theorem openFile_none (hdir : fs.dir n = none) :
    fs.openFile flags n = if flags.creat then some (fs.create n, ⟨fs.fresh, 0⟩) else none := by
  unfold openFile
  rw [hdir]

theorem create_ne (hdir : fs.dir n = none) : fs.create n ≠ fs := fun heq => by
  have hn : (fs.create n).dir n = some fs.fresh := Function.update_self ..
  rw [heq, hdir] at hn
  cases hn

theorem keeps_create (hdir : fs.dir n = none) : fs.Keeps (fs.create n) := by
  intro m i hm
  have hne : m ≠ n := fun hmn => by
    rw [hmn, hdir] at hm
    exact absurd hm (Option.some_ne_none i).symm
  exact ⟨(Function.update_of_ne hne ..).trans hm, Function.update_of_ne (Nat.ne_of_lt (fs.used m i hm)) ..⟩

/-- A file that has just been opened without `trunc`: its name leads to it, and it has what it had, or nothing. -/
theorem opened (hopen : fs.openFile flags n = some (fs', h)) (htrunc : flags.trunc = false) :
    fs'.dir n = some h.ino ∧ h.pos = 0 ∧ fs'.data h.ino = (fs.read n).getD [] := by
  cases hdir : fs.dir n with
  | some i =>
    rw [openFile_some hdir htrunc] at hopen
    cases hopen
    exact ⟨hdir, rfl, by rw [read, hdir]; rfl⟩
  | none =>
    rw [openFile_none hdir] at hopen
    split_ifs at hopen
    cases hopen
    refine ⟨Function.update_self .., rfl, ?_⟩
    rw [read, hdir]
    exact Function.update_self ..

end Fs

end Files
end OsLabs
