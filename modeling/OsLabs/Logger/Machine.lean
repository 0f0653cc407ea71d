/-
# The logger

`main.c` with the name of the log, relative or absolute; `rotate` puts `./` in front of it. The directory leads from
paths to inodes, and an open `FILE` has the inode that its path had when it was opened. What `fputs` writes stays in the
buffer of the `FILE` until the library flushes it, which it may do at any time with any part of it, and `fclose` does with
all of it.

A `SIGHUP` comes at any time; before `signal` has been called it ends the process, and afterwards it sets
`NEED_ROTATE`. A read that it interrupts is restarted.

`track` records the chunks that have been written, with a list for each file: the current one, the one before the last
rotation, and so on.

Key definitions: `fgets`, `chunks`, `step`.
-/
import OsLabs.Lib.Files
import OsLabs.Lib.Run

namespace OsLabs
namespace Logger

open Function (update)

abbrev Byte := BitVec 8

abbrev Path := List Char

/-! ### Files -/

/-- Where a path leads from `.` on: a further `./` leads nowhere, and a further slash does not either. -/
def within : Path → Path
  | '/' :: p => within p
  | '.' :: '/' :: p => within p
  | p => p

/-- The entry that a path leads to. `.` is the directory in which the program was started; it is not the root. -/
def entry : Path → Path
  | '.' :: '/' :: p => within p
  | p => p

/-- The path does not start at the root. -/
def Relative (p : Path) : Prop := p.head? ≠ some '/'

instance : DecidablePred Relative := fun p => inferInstanceAs (Decidable (p.head? ≠ some '/'))

/-- `%d`. -/
def decimal : ℤ → List Char
  | .ofNat n => Nat.toDigits 10 n
  | .negSucc n => '-' :: Nat.toDigits 10 (n + 1)

/-- `"%s/%s"`, with `CUR_DIR`. -/
def inDir (filename : Path) : Path := ['.', '/'] ++ filename

/-- `"%s/%s.%d"`. -/
def numbered (filename : Path) (i : ℤ) : Path := ['.', '/'] ++ filename ++ ['.'] ++ decimal i

/-- The entries of the directory, by their names without `./`. -/
abbrev Fs := Files.Fs Path Byte

namespace Fs

variable (fs : Fs)

def read (p : Path) : Option (List Byte) := Files.Fs.read fs (entry p)

/-- `fopen(.., "a")`: the inode, which is a new one if there is no such file. -/
def fopen (p : Path) : Fs × ℕ :=
  match fs.dir (entry p) with
  | some i => (fs, i)
  | none => (fs.create (entry p), fs.fresh)

variable {fs} in
theorem fopen_some {p : Path} {i : ℕ} (h : fs.dir (entry p) = some i) : fs.fopen p = (fs, i) := by
  unfold fopen
  rw [h]

variable {fs} in
theorem fopen_none {p : Path} (h : fs.dir (entry p) = none) : fs.fopen p = (fs.create (entry p), fs.fresh) := by
  unfold fopen
  rw [h]

def move (old new : Path) (i : ℕ) (h : fs.dir old = some i) : Fs where
  dir := update (update fs.dir old none) new (some i)
  data := fs.data
  fresh := fs.fresh
  used q j hq := by
    by_cases hnew : q = new
    · rw [hnew, Function.update_self] at hq
      cases hq
      exact fs.used old _ h
    · rw [Function.update_of_ne hnew] at hq
      by_cases hold : q = old
      · rw [hold, Function.update_self] at hq
        cases hq
      · rw [Function.update_of_ne hold] at hq
        exact fs.used q j hq

/-- It does nothing if there is no file, or if both are names of one file. -/
def rename (old new : Path) : Fs :=
  match h : fs.dir (entry old) with
  | none => fs
  | some i => if fs.dir (entry new) = some i then fs else fs.move (entry old) (entry new) i h

theorem rename_data (old new : Path) : (fs.rename old new).data = fs.data := by
  unfold rename
  split
  · rfl
  · split_ifs <;> rfl

/-- Other files stay where they are. -/
theorem rename_other {old new p : Path} (hold : p ≠ entry old) (hnew : p ≠ entry new) : (fs.rename old new).dir p = fs.dir p := by
  unfold rename
  split
  · rfl
  · split_ifs
    · rfl
    · exact (Function.update_of_ne hnew _ _).trans (Function.update_of_ne hold _ _)

variable {fs} in
theorem rename_new {old new : Path} (h : (fs.dir (entry old)).isSome = true) :
    ((fs.rename old new).dir (entry new)).isSome = true := by
  unfold rename
  split
  · next hnone =>
    rw [hnone] at h
    exact absurd h Bool.false_ne_true
  · next i _ =>
    split_ifs with hsame
    · rw [hsame]
      rfl
    · show (update (update fs.dir (entry old) none) (entry new) (some i) (entry new)).isSome = true
      rw [Function.update_self]
      rfl

theorem fopen_self (p : Path) : ((fs.fopen p).1.dir (entry p)).isSome = true := by
  cases h : fs.dir (entry p) with
  | some i =>
    rw [fopen_some h, h]
    rfl
  | none =>
    rw [fopen_none h]
    show (update fs.dir (entry p) (some fs.fresh) (entry p)).isSome = true
    rw [Function.update_self]
    rfl

theorem fopen_other {p q : Path} (hq : q ≠ entry p) : (fs.fopen p).1.dir q = fs.dir q := by
  cases h : fs.dir (entry p) with
  | some i => rw [fopen_some h]
  | none =>
    rw [fopen_none h]
    exact Function.update_of_ne hq _ _

def append (i : ℕ) (bytes : List Byte) : Fs := { fs with data := update fs.data i (fs.data i ++ bytes) }

end Fs

/-! ### Reading -/

/-- What `fgets` takes from the stream, and what is left: up to `n` bytes, and not beyond a newline. -/
def fgets : ℕ → List Byte → List Byte × List Byte
  | 0, s => ([], s)
  | _ + 1, [] => ([], [])
  | n + 1, c :: s => if c = 10 then ([c], s) else (c :: (fgets n s).1, (fgets n s).2)

theorem fgets_append : ∀ (n : ℕ) (s : List Byte), (fgets n s).1 ++ (fgets n s).2 = s
  | 0, s => rfl
  | _ + 1, [] => rfl
  | n + 1, c :: s => by
    unfold fgets
    split_ifs
    · rfl
    · rw [List.cons_append, fgets_append n s]

theorem fgets_ne_nil (n : ℕ) : ∀ {s : List Byte}, s ≠ [] → (fgets (n + 1) s).1 ≠ []
  | c :: s, _ => by
    unfold fgets
    split_ifs <;> exact List.cons_ne_nil _ _

/-- `sizeof(buff) - 1`. -/
abbrev ROOM : ℕ := 4095

theorem fgets_length {s : List Byte} (h : s ≠ []) : (fgets ROOM s).2.length < s.length := by
  have hlen := congrArg List.length (fgets_append ROOM s)
  have hpos : 0 < (fgets ROOM s).1.length := List.length_pos_of_ne_nil (fgets_ne_nil 4094 h)
  rw [List.length_append] at hlen
  omega

/-- The chunks that `fgets` makes of a stream. -/
def chunks (s : List Byte) : List (List Byte) :=
  if _ : s = [] then [] else (fgets ROOM s).1 :: chunks (fgets ROOM s).2
termination_by s.length
decreasing_by exact fgets_length ‹_›

theorem chunks_nil : chunks [] = [] := by
  rw [chunks]
  rfl

theorem chunks_cons {s : List Byte} (h : s ≠ []) : chunks s = (fgets ROOM s).1 :: chunks (fgets ROOM s).2 := by
  rw [chunks, dif_neg h]

theorem chunks_flatten (s : List Byte) : (chunks s).flatten = s := by
  induction hn : s.length using Nat.strong_induction_on generalizing s with
  | _ n ih =>
    by_cases h : s = []
    · rw [h, chunks_nil]
      rfl
    · have hlt := fgets_length h
      rw [chunks_cons h, List.flatten_cons, ih _ (by omega) _ rfl, fgets_append]

/-- What `fputs` writes: up to the first NUL. -/
def cstring (s : List Byte) : List Byte := s.takeWhile (· ≠ 0)

theorem cstring_eq {s : List Byte} (h : (0 : Byte) ∉ s) : cstring s = s := by
  refine List.takeWhile_eq_self_iff.mpr fun b hb => ?_
  simp only [ne_eq, decide_eq_true_eq]
  rintro rfl
  exact h hb

/-! ### The program -/

inductive PC
  -- before `signal`
  | start
  | opening
  -- at `fgets`
  | reading
  | check (buff : List Byte)
  -- in `rotate`, in the loop
  | shift (i : ℤ) (nxt : Path) (buff : List Byte)
  | close (buff : List Byte)
  | reopen (buff : List Byte)
  | clear (buff : List Byte)
  | puts (buff : List Byte)
  -- behind the loop
  | closing
  | done
  -- by a signal
  | killed

structure State where
  pc : PC
  -- what `stdin` has still to deliver
  input : List Byte
  fs : Fs
  -- `log`: its inode and its buffer
  log : ℕ
  buf : List Byte
  needRotate : Bool
  maxIdx : ℤ
  track : List (List (List Byte))

/-- A step of the program, a signal, or a flush of the first `n` bytes of the buffer. -/
inductive Event
  | run
  | hup
  | flush (n : ℕ)

inductive Fault
  -- `max_idx + 1` is no `int`
  | overflow
  -- the process has ended
  | exited
  deriving DecidableEq, Repr

abbrev INT_MAX : ℤ := 2 ^ 31 - 1

/-- The chunk has been written to the current file. -/
def record (buff : List Byte) : List (List (List Byte)) → List (List (List Byte))
  | [] => []
  | seg :: segs => (seg ++ [buff]) :: segs

section

variable (fname : Path) (s : State)

def runStep : Except Fault State :=
  match s.pc with
  | .start => .ok { s with pc := .opening }
  | .opening => .ok { s with fs := (s.fs.fopen fname).1, log := (s.fs.fopen fname).2, pc := .reading }
  | .reading =>
    if s.input = [] then .ok { s with pc := .closing }
    else .ok { s with input := (fgets ROOM s.input).2, pc := .check (fgets ROOM s.input).1 }
  | .check buff =>
    if s.needRotate then
      -- `++max_idx`, and `max_idx + 1` for the name
      if INT_MAX < s.maxIdx + 2 then .error .overflow
      else .ok { s with maxIdx := s.maxIdx + 1, pc := .shift (s.maxIdx + 1) (numbered fname (s.maxIdx + 2)) buff }
    else .ok { s with pc := .puts buff }
  | .shift i nxt buff =>
    if i = 0 then .ok { s with fs := s.fs.rename (inDir fname) nxt, pc := .close buff }
    else .ok { s with fs := s.fs.rename (numbered fname i) nxt, pc := .shift (i - 1) (numbered fname i) buff }
  | .close buff => .ok { s with fs := s.fs.append s.log s.buf, buf := [], pc := .reopen buff }
  | .reopen buff =>
    .ok { s with
      fs := (s.fs.fopen fname).1
      log := (s.fs.fopen fname).2
      track := [] :: s.track
      pc := .clear buff }
  | .clear buff => .ok { s with needRotate := false, pc := .puts buff }
  | .puts buff => .ok { s with buf := s.buf ++ cstring buff, track := record buff s.track, pc := .reading }
  | .closing => .ok { s with fs := s.fs.append s.log s.buf, buf := [], pc := .done }
  | .done | .killed => .error .exited

def step : Event → Except Fault State
  | .run => runStep fname s
  | .hup =>
    match s.pc with
    | .start => .ok { s with pc := .killed }
    | .done | .killed => .error .exited
    | _ => .ok { s with needRotate := true }
  | .flush n =>
    match s.pc with
    | .done | .killed => .error .exited
    | _ => .ok { s with fs := s.fs.append s.log (s.buf.take n), buf := s.buf.drop n }

end

def init (fs : Fs) (stream : List Byte) : State := ⟨.start, stream, fs, 0, [], false, -1, [[]]⟩

end Logger
end OsLabs
