/-
# The files of a command

What `Exec` of `io` and of `pipe` does to the file system. A target of `>` is opened with `O_CREAT` and without `O_TRUNC`,
so that a file that is missing is created and one that is there keeps what it has. If another target of the line cannot be
opened, `unlink` is called for a path only if that path is null, so that nothing is undone.

`name` leads from a path to the file that it names, so that two paths may name one file. Where a file is, and whether
it is forbidden to open it, is the environment's.

Key definitions: `Opening`, `Io.execFiles`, `Pipe.childFiles`.
Key theorem: `Io.io_error_kept`.
-/
import OsLabs.Bash.Output
import OsLabs.Bash.Commands
import OsLabs.Lib.Files

namespace OsLabs
namespace Bash

open Files

abbrev Byte := BitVec 8

def Mode.flags : Mode → Flags
  | .read => ⟨false, false⟩
  | .write => ⟨true, false⟩

/-- The files while the redirects of a command are opened. -/
structure Opening (N : Type) where
  fs : Fs N Byte
  ioError : Bool
  /-- Where 1 leads, once it has been moved. -/
  out : Option Handle

variable {N : Type} [DecidableEq N] (name : Text → N) (allows : Mode → Text → Bool)

/-- `open`, and what `Dup` and `DupWithOpen` make of it. -/
def openPath (o : Opening N) (mode : Mode) (path : Text) : Opening N :=
  match if allows mode path then o.fs.openFile mode.flags (name path) else none with
  | some (fs, h) => { o with fs := fs, out := if mode = .write then some h else o.out }
  | none => { o with ioError := true }

/-- The null pointer is no path. -/
def unlink (fs : Fs N Byte) : Option Text → Fs N Byte
  | some path => fs.unlink (name path)
  | none => fs

namespace Io

/-- With `in_path` and `out_path`. -/
structure Walk (N : Type) where
  opening : Opening N
  inPath : Option Text
  outPath : Option Text

def dup (w : Walk N) (mode : Mode) (path : Text) : Walk N where
  opening := openPath name allows w.opening mode path
  inPath := if mode = .read then some path else w.inPath
  outPath := if mode = .write then some path else w.outPath

/-- The end of `CheckIOAndOpenFiles`. -/
def undo (w : Walk N) : Walk N :=
  if w.opening.ioError then
    let fs := if w.inPath = none then unlink name w.opening.fs w.inPath else w.opening.fs
    let fs := if w.outPath = none then unlink name fs w.outPath else fs
    { w with opening := { w.opening with fs := fs } }
  else w

/-- `Exec` in the file system `fs`. -/
def execFiles (tokenizer : Tokenizer) (image : Image) (fs : Fs N Byte) : Except Fault (Reply × Walk N) :=
  execWith (dup name allows) (undo name) (·.opening.ioError) tokenizer image ⟨⟨fs, false, none⟩, none, none⟩

end Io

namespace Pipe

/-- With `path`. -/
structure Walk (N : Type) where
  opening : Opening N
  path : Option Text

def dupFile (w : Walk N) (mode : Mode) (path : Text) : Walk N where
  opening := openPath name allows w.opening mode path
  path := some path

/-- `ValidateIOAndOpenFile`. -/
def openFiles (mode : Mode) (command : List Token) (o : Opening N) : Except Fault (Opening N) := do
  if o.ioError then return o
  let w ← validateIOAndOpenFile (dupFile name allows) (mode = .read) (mode = .write) command ⟨o, none⟩
  if w.opening.ioError then
    let fs := if w.path = none then unlink name w.opening.fs w.path else w.opening.fs
    return { w.opening with fs := fs }
  return w.opening

/-- The first child opens what it reads, and the last one what it writes. -/
def openHere (here : Prop) [Decidable here] (mode : Mode) (command : List Token) (o : Opening N) : Except Fault (Opening N) :=
  if here then openFiles name allows mode command o else .ok o

/-- The child of the `i`-th of `cnt` commands in the file system `fs`. -/
def childFiles (cnt i : ℕ) (command : List Token) (image : Image) (fs : Fs N Byte) : Except Fault (Reply × Opening N) := do
  let o ← openHere name allows (i = 0) .read command ⟨fs, false, none⟩
  if o.ioError then return (.returns ioErrorText, o)
  let o ← openHere name allows (i = cnt - 1) .write command o
  if o.ioError then return (.returns ioErrorText, o)
  let argv ← getArgv command
  if image = .failed then
    let argc ← getArgc command
    freeArgv argv (argc + 1)
    return (.returns commandNf, o)
  return (.becomes image, o)

end Pipe

/-! ### One redirect after the other -/

section

theorem openPath_ioError (o : Opening N) (mode : Mode) (path : Text) (h : o.ioError = true) :
    (openPath name allows o mode path).ioError = true := by
  unfold openPath
  split
  · exact h
  · rfl

/-- A file that is read is not changed. -/
theorem openPath_read (o : Opening N) (path : Text) :
    (openPath name allows o .read path).fs = o.fs ∧ (openPath name allows o .read path).out = o.out := by
  unfold openPath
  cases allows .read path with
  | false => exact ⟨rfl, rfl⟩
  | true =>
    cases hdir : o.fs.dir (name path) with
    | some i =>
      rw [if_pos rfl, Fs.openFile_some hdir rfl]
      exact ⟨rfl, rfl⟩
    | none =>
      rw [if_pos rfl, Fs.openFile_none hdir]
      exact ⟨rfl, rfl⟩

/-- What the `>` of a line does to the files. -/
def created (fs : Fs N Byte) (path : Text) : Fs N Byte :=
  if allows .write path = true ∧ fs.dir (name path) = none then fs.create (name path) else fs

theorem openPath_write (o : Opening N) (path : Text) :
    (openPath name allows o .write path).fs = created name allows o.fs path ∧
    ((openPath name allows o .write path).ioError = false → ∃ h,
      o.fs.openFile Mode.write.flags (name path) = some (created name allows o.fs path, h) ∧
        (openPath name allows o .write path).out = some h) := by
  unfold openPath created
  cases allows .write path with
  | false => exact ⟨(if_neg fun hn => Bool.false_ne_true hn.1).symm, nofun⟩
  | true =>
    cases hdir : o.fs.dir (name path) with
    | some i =>
      rw [if_pos rfl, Fs.openFile_some hdir rfl, if_neg fun hn => absurd hn.2 (Option.some_ne_none i)]
      exact ⟨rfl, fun _ => ⟨_, rfl, rfl⟩⟩
    | none =>
      rw [if_pos rfl, Fs.openFile_none hdir, if_pos (show Mode.write.flags.creat = true from rfl), if_pos ⟨rfl, rfl⟩]
      exact ⟨rfl, fun _ => ⟨_, rfl, rfl⟩⟩

theorem created_eq_iff (fs : Fs N Byte) (path : Text) :
    created name allows fs path = fs ↔ (allows .write path = true → fs.dir (name path) ≠ none) := by
  unfold created
  split_ifs with h
  · exact iff_of_false (Fs.create_ne h.2) fun hn => (hn h.1) h.2
  · exact iff_of_true rfl fun hallow hdir => h ⟨hallow, hdir⟩

/-- All the redirects of a command, with the targets of `>` by themselves. -/
def writes (xs : List (Mode × Text)) : List Text := (xs.filter (·.1 = .write)).map Prod.snd

/-- The walk over the redirects. -/
def openAll (xs : List (Mode × Text)) (o : Opening N) : Opening N :=
  xs.foldl (fun o x => openPath name allows o x.1 x.2) o

theorem openAll_ioError : ∀ (xs : List (Mode × Text)) (o : Opening N), o.ioError = true →
    (openAll name allows xs o).ioError = true
  | [], _, h => h
  | x :: xs, o, h => openAll_ioError xs _ (openPath_ioError name allows o x.1 x.2 h)

theorem openAll_reads : ∀ (xs : List (Mode × Text)) (o : Opening N), writes xs = [] →
    (openAll name allows xs o).fs = o.fs ∧ (openAll name allows xs o).out = o.out
  | [], o, _ => ⟨rfl, rfl⟩
  | (.read, path) :: xs, o, h => by
    obtain ⟨hfs, hout⟩ := openAll_reads xs (openPath name allows o .read path) h
    obtain ⟨hfs', hout'⟩ := openPath_read name allows o path
    exact ⟨hfs.trans hfs', hout.trans hout'⟩
  | (.write, _) :: _, _, h => absurd h (List.cons_ne_nil _ _)

/-- A command with one `>`. -/
theorem openAll_write : ∀ (xs : List (Mode × Text)) (o : Opening N) {path : Text}, writes xs = [path] →
    (openAll name allows xs o).fs = created name allows o.fs path ∧
    ((openAll name allows xs o).ioError = false → ∃ h,
      o.fs.openFile Mode.write.flags (name path) = some (created name allows o.fs path, h) ∧
        (openAll name allows xs o).out = some h)
  | [], _, _, h => absurd h.symm (List.cons_ne_nil _ _)
  | (.read, p) :: xs, o, path, h => by
    obtain ⟨hfs, hout⟩ := openAll_write xs (openPath name allows o .read p) h
    rw [(openPath_read name allows o p).1] at hfs hout
    exact ⟨hfs, hout⟩
  | (.write, p) :: xs, o, path, h => by
    obtain ⟨rfl, hrest⟩ := List.cons.inj h
    obtain ⟨hfs, hout⟩ := openPath_write name allows o p
    obtain ⟨hfs', hout'⟩ := openAll_reads name allows xs (openPath name allows o .write p) hrest
    refine ⟨hfs'.trans hfs, fun hok => ?_⟩
    have hok' : (openPath name allows o .write p).ioError = false := by
      by_contra hn
      have := openAll_ioError name allows xs _ (Bool.eq_true_of_not_eq_false hn)
      exact Bool.false_ne_true (hok.symm.trans this)
    obtain ⟨h, hopen, hh⟩ := hout hok'
    exact ⟨h, hopen, hout'.trans hh⟩

/-- What a child has come to that opens `xs`. -/
structure Opened (xs : List (Mode × Text)) (image : Image) (fs : Fs N Byte) (reply : Reply) (o : Opening N) : Prop where
  opening : o = openAll name allows xs ⟨fs, false, none⟩
  reply : o.ioError = true ∧ reply = .returns ioErrorText ∨
    o.ioError = false ∧ reply = if image = .failed then .returns commandNf else .becomes image

end

/-! ### An I/O error -/

namespace Io

theorem undo_eq (w : Walk N) : undo name w = w := by
  obtain ⟨⟨fs, ioError, out⟩, inPath, outPath⟩ := w
  cases ioError <;> cases inPath <;> cases outPath <;> rfl

theorem dup_foldl (xs : List (Mode × Text)) (w : Walk N) :
    (xs.foldl (fun w x => dup name allows w x.1 x.2) w).opening = openAll name allows xs w.opening := by
  induction xs generalizing w with
  | nil => rfl
  | cons x xs ih => exact ih (dup name allows w x.1 x.2)

variable {name allows} {line : List Char} {image : Image} {fs : Fs N Byte} {reply : Reply} {w : Walk N}

theorem execFiles_opened (hcheck : checkSyntax (tokenizerInit line) = false) (hnil : (tokenizerInit line).head ≠ [])
    (h : execFiles name allows (tokenizerInit line) image fs = .ok (reply, w)) :
    Opened name allows (targets (tokenizerInit line).head) image fs reply w.opening := by
  have hline : tokenizerInit line = ⟨(tokenizerInit line).head.length, (tokenizerInit line).head⟩ := rfl
  rw [execFiles, hline, execWith_accepted hnil (no_pipe line) hcheck, undo_eq] at h
  have hopening := dup_foldl name allows (targets (tokenizerInit line).head) ⟨⟨fs, false, none⟩, none, none⟩
  dsimp only at h
  split_ifs at h with hfail himage hout
  · cases h
    exact ⟨hopening, Or.inl ⟨hfail, rfl⟩⟩
  · cases h
    exact ⟨hopening, Or.inr ⟨Bool.eq_false_of_not_eq_true hfail, (if_pos himage).symm⟩⟩
  · cases h
    exact ⟨hopening, Or.inr ⟨Bool.eq_false_of_not_eq_true hfail, (if_neg himage).symm⟩⟩

/-- An accepted line has at most one `>`. -/
theorem writes_line (hcheck : checkSyntax (tokenizerInit line) = false) :
    writes (targets (tokenizerInit line).head) = behind .outfile (tokenizerInit line).head ∧
      (behind .outfile (tokenizerInit line).head).length ≤ 1 := by
  obtain ⟨htargeted, -, hout⟩ := targeted_of_check (no_pipe line) hcheck
  have hfiles : Pipe.files .write (tokenizerInit line).head = behind .outfile (tokenizerInit line).head := by
    rw [files_eq_behind .write htargeted, runOf_single (no_pipe line)]
    rfl
  have hlen := (Pipe.length_files htargeted).2
  rw [runOf_single (no_pipe line), hfiles] at hlen
  exact ⟨hfiles, hlen.trans_le hout⟩

/-- **The files of a failed command.** A line that ends in an I/O error leaves the files as they were if and only if
the target of its `>`, if it has one that can be opened, was there already. -/
theorem io_error_kept (hcheck : checkSyntax (tokenizerInit line) = false)
    (h : execFiles name allows (tokenizerInit line) image fs = .ok (.returns ioErrorText, w)) :
    w.opening.fs = fs ↔
      ∀ path ∈ behind .outfile (tokenizerInit line).head, allows .write path = true → fs.dir (name path) ≠ none := by
  have hnil : (tokenizerInit line).head ≠ [] := fun hn => by
    have hzero : (tokenizerInit line).tokenCount = 0 := List.length_eq_zero_iff.mpr hn
    rw [execFiles, execWith, if_pos hzero] at h
    cases h
  have hopening := (execFiles_opened hcheck hnil h).opening
  obtain ⟨hwrites, hle⟩ := writes_line hcheck
  rw [hopening, ← hwrites]
  rw [← hwrites] at hle
  cases hpaths : writes (targets (tokenizerInit line).head) with
  | nil =>
    exact iff_of_true (openAll_reads name allows _ ⟨fs, false, none⟩ hpaths).1
      fun path hp => absurd hp List.not_mem_nil
  | cons path rest =>
    obtain rfl : rest = [] := by
      rw [hpaths] at hle
      exact List.length_eq_zero_iff.mp (Nat.le_zero.mp (Nat.le_of_succ_le_succ hle))
    rw [(openAll_write name allows _ ⟨fs, false, none⟩ hpaths).1, List.forall_mem_singleton]
    exact created_eq_iff name allows fs path

/-- `b` is there. -/
theorem io_error_kept_there : ∃ w, execFiles id (fun _ _ => true) (tokenizerInit "cat < a > b\n".toList) .program
    (Fs.empty.create ['b']) = .ok (.returns ioErrorText, w) ∧ w.opening.fs = Fs.empty.create ['b'] := by
  have hany : ((execFiles id (fun _ _ => true) (tokenizerInit "cat < a > b\n".toList) .program
      (Fs.empty.create ['b'])).toOption.any fun x => x.1 = .returns ioErrorText) = true := by decide +kernel
  obtain ⟨⟨reply, w⟩, hw, hreply⟩ := (Option.any_eq_true ..).mp hany
  obtain rfl : reply = .returns ioErrorText := of_decide_eq_true hreply
  exact ⟨w, of_toOption hw, (io_error_kept (by decide +kernel) (of_toOption hw)).mpr (by decide +kernel)⟩

/-- There is no `a`, and `b` is created. -/
theorem io_error_creates : checkSyntax (tokenizerInit "cat < a > b\n".toList) = false ∧
    ∃ w, execFiles id (fun _ _ => true) (tokenizerInit "cat < a > b\n".toList) .program Fs.empty =
      .ok (.returns ioErrorText, w) ∧ w.opening.fs.read ['b'] = some [] := by
  have hany : ((execFiles id (fun _ _ => true) (tokenizerInit "cat < a > b\n".toList) .program
      Fs.empty).toOption.any fun x => x.1 = .returns ioErrorText && x.2.opening.fs.read ['b'] = some []) = true := by
    decide +kernel
  obtain ⟨⟨reply, w⟩, hw, hx⟩ := (Option.any_eq_true ..).mp hany
  obtain ⟨hreply, hread⟩ := (Bool.and_eq_true ..).mp hx
  obtain rfl : reply = .returns ioErrorText := of_decide_eq_true hreply
  exact ⟨by decide +kernel, w, of_toOption hw, of_decide_eq_true hread⟩

end Io

end Bash
end OsLabs
