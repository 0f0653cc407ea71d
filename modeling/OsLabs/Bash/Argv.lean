/-
# What the three shells make of a line

The walks over the tokens of a command: `GetArgc` and `GetArgv`, and the walk that opens the
targets of the redirects, which `pipe` and `io` write separately; and `io`'s `CheckSyntax`. A
walk over the redirects has the opening of a file as an argument, so that it can be run on
descriptors as well as on a list of the files (`record`).

`interpret` is the meaning of a line's tokens: the programs they launch, each with its `argv` and the files it
opens. `shells_agree` compares the three shells on lines that they have in common.

Key definitions: `Pipe.interpret`, `Io.interpret`, `Base.interpret`, `Line.Same`.
-/
import OsLabs.Bash.Syntax

namespace OsLabs
namespace Bash

/-- `O_RDONLY`, or `O_WRONLY | O_CREAT`. -/
inductive Mode
  | read
  | write
  deriving DecidableEq, Repr

/-- An `argv`: the slots that `calloc` has made, and what is stored in them. -/
abbrev Argv := List (Option Text)

/-- What `execvp` sees of it. -/
def Argv.args (argv : Argv) : List Text := (argv.takeWhile Option.isSome).filterMap id

def emptyArgv (argc : ℕ) : Argv := List.replicate (argc + 1) none

/-- A program that is launched. -/
structure Program where
  argv : Argv
  opens : List (Mode × Text)
  deriving DecidableEq, Repr

/-- What a shell makes of a line. -/
inductive Line
  | nothing
  | syntaxError
  | launch (programs : List Program)
  deriving DecidableEq, Repr

/-- Opens a file by noting it. -/
def record (opens : List (Mode × Text)) (mode : Mode) (path : Text) : List (Mode × Text) := opens ++ [(mode, path)]

variable {σ : Type}

namespace Pipe

/-- The loop of `GetArgc`. -/
def argcLoop : List Token → ℕ → Except Fault ℕ
  | [], argc => .ok argc
  | t :: rest, argc =>
    match t.type with
    | .pipe => .ok argc
    | .word => argcLoop rest (argc + 1)
    | _ =>
      match rest with
      | [] => .error .null
      | _ :: rest => argcLoop rest argc

def getArgc (command : List Token) : Except Fault ℕ := argcLoop command 0

/-- The loop of `GetArgv`. -/
def argvLoop : List Token → ℕ → Argv → Except Fault Argv
  | [], _, argv => .ok argv
  | t :: rest, idx, argv =>
    match t.type with
    | .pipe => .ok argv
    | .word => do
      let argv ← assign argv idx (some t.text)
      argvLoop rest (idx + 1) argv
    | _ =>
      match rest with
      | [] => .error .null
      | _ :: rest => argvLoop rest idx argv

def getArgv (command : List Token) : Except Fault Argv := do
  let argc ← getArgc command
  argvLoop command 0 (emptyArgv argc)

/-- The loop of `ValidateIOAndOpenFile`. -/
def validateIOAndOpenFile (dupWithOpen : σ → Mode → Text → σ) (first last : Bool) : List Token → σ → Except Fault σ
  | [], s => .ok s
  | t :: rest, s =>
    match t.type with
    | .pipe => .ok s
    | .infile =>
      match rest with
      | [] => .error .null
      | target :: rest =>
        validateIOAndOpenFile dupWithOpen first last rest (if first then dupWithOpen s .read target.text else s)
    | .outfile =>
      match rest with
      | [] => .error .null
      | target :: rest =>
        validateIOAndOpenFile dupWithOpen first last rest (if last then dupWithOpen s .write target.text else s)
    | .word => validateIOAndOpenFile dupWithOpen first last rest s

/-- What the child launched for command `i` opens and executes. -/
def child (cnt i : ℕ) (command : List Token) : Except Fault Program := do
  let opens ← if i == 0 then validateIOAndOpenFile record true false command [] else .ok []
  let opens ← if i == cnt - 1 then validateIOAndOpenFile record false true command opens else .ok opens
  let argv ← getArgv command
  return ⟨argv, opens⟩

def children (cnt : ℕ) : ℕ → List (List Token) → Except Fault (List Program)
  | _, [] => .ok []
  | i, command :: rest => do
    let p ← child cnt i command
    let ps ← children cnt (i + 1) rest
    return p :: ps

def interpret (tokenizer : Tokenizer) : Except Fault Line := do
  match ← exec tokenizer with
  | .nothing => return .nothing
  | .syntaxError => return .syntaxError
  | .launch commands cnt => return .launch (← children cnt 0 commands)

end Pipe

namespace Io

/-- At a redirect before `next`: the new `syntax_error` and `token_changed`. -/
def checkIOSyntax (next : List Token) (syntaxError tokenChanged : Bool) : Bool × Bool :=
  (if tokenChanged || (match next with | [] => true | u :: _ => u.type ≠ .word) then true else syntaxError, true)

/-- The loop of `CheckSyntax`, with its flags `in_changed` and `out_changed`. -/
def checkLoop : List Token → Bool → Bool → Bool → Bool
  | [], _, _, syntaxError => syntaxError
  | t :: rest, inChanged, outChanged, syntaxError =>
    match t.type with
    | .infile =>
      let (syntaxError, inChanged) := checkIOSyntax rest syntaxError inChanged
      checkLoop rest inChanged outChanged syntaxError
    | .outfile =>
      let (syntaxError, outChanged) := checkIOSyntax rest syntaxError outChanged
      checkLoop rest inChanged outChanged syntaxError
    | _ => checkLoop rest inChanged outChanged syntaxError

def checkSyntax (tokenizer : Tokenizer) : Bool := checkLoop tokenizer.head false false false

/-- The loop of `CheckIOAndOpenFiles`. It passes over a `<` only, so that the target comes next and is counted. -/
def openLoop (dup : σ → Mode → Text → σ) : List Token → ℕ → σ → Except Fault (ℕ × σ)
  | [], argc, s => .ok (argc, s)
  | t :: rest, argc, s =>
    match t.type with
    | .infile =>
      match rest with
      | [] => .error .null
      | target :: _ => openLoop dup rest argc (dup s .read target.text)
    | .outfile =>
      match rest with
      | [] => .error .null
      | target :: rest => openLoop dup rest argc (dup s .write target.text)
    | _ => openLoop dup rest (argc + 1) s

def checkIOAndOpenFiles (dup : σ → Mode → Text → σ) (tokenizer : Tokenizer) (s : σ) : Except Fault (ℕ × σ) :=
  openLoop dup tokenizer.head 0 s

/-- The loop of `GetArgv`. -/
def argvLoop : List Token → ℕ → Argv → Except Fault Argv
  | [], _, argv => .ok argv
  | t :: rest, idx, argv =>
    if t.type ≠ .word then
      match rest with
      | [] => .error .null
      | _ :: rest => argvLoop rest idx argv
    else do
      let argv ← assign argv idx (some t.text)
      argvLoop rest (idx + 1) argv

def getArgv (tokenizer : Tokenizer) (argc : ℕ) : Except Fault Argv := argvLoop tokenizer.head 0 (emptyArgv argc)

def interpret (tokenizer : Tokenizer) : Except Fault Line := do
  if tokenizer.tokenCount = 0 then return .nothing
  if checkSyntax tokenizer then return .syntaxError
  let (argc, opens) ← checkIOAndOpenFiles record tokenizer []
  let argv ← getArgv tokenizer argc
  return .launch [⟨argv, opens⟩]

end Io

namespace Base

/-- The loop of `GetArgv`, with `n` passes to go. -/
def argvLoop : ℕ → List Token → ℕ → Argv → Except Fault Argv
  | 0, _, _, argv => .ok argv
  | _ + 1, [], _, _ => .error .null
  | n + 1, t :: rest, i, argv => do
    let argv ← assign argv i (some t.text)
    argvLoop n rest (i + 1) argv

def getArgv (tokenizer : Tokenizer) : Except Fault Argv :=
  argvLoop tokenizer.tokenCount tokenizer.head 0 (emptyArgv tokenizer.tokenCount)

def interpret (tokenizer : Tokenizer) : Except Fault Line := do
  if tokenizer.tokenCount = 0 then return .nothing
  let argv ← getArgv tokenizer
  return .launch [⟨argv, []⟩]

end Base

/-! ### Arguments and targets -/

/-- The words of a command that are no redirect's target. -/
def args : List Token → List Text
  | [] => []
  | t :: rest =>
    match t.type with
    | .pipe => []
    | .word => t.text :: args rest
    | _ =>
      match rest with
      | [] => []
      | _ :: rest => args rest

/-- The targets of its redirects. -/
def targets : List Token → List (Mode × Text)
  | [] => []
  | t :: rest =>
    match t.type with
    | .pipe => []
    | .word => targets rest
    | type =>
      match rest with
      | [] => []
      | target :: rest => (if type = .infile then .read else .write, target.text) :: targets rest

/-- The two shells launch the program with the same arguments and the same files. -/
def Program.Same (p q : Program) : Prop :=
  p.argv.args = q.argv.args ∧ ∀ mode, p.opens.filter (·.1 = mode) = q.opens.filter (·.1 = mode)

def Line.Same : Line → Line → Prop
  | .nothing, .nothing => True
  | .syntaxError, .syntaxError => True
  | .launch ps, .launch qs => List.Forall₂ Program.Same ps qs
  | _, _ => False

/-- Every redirect of the command is followed by its target. -/
inductive Targeted : List Token → Prop
  | stop {command : List Token} : isCommandEnd command = true → Targeted command
  | word {t : Token} {rest : List Token} : t.type = .word → Targeted rest → Targeted (t :: rest)
  | infile {t u : Token} {rest : List Token} : t.type = .infile → u.type = .word → Targeted rest →
      Targeted (t :: u :: rest)
  | outfile {t u : Token} {rest : List Token} : t.type = .outfile → u.type = .word → Targeted rest →
      Targeted (t :: u :: rest)

theorem startsWithWord_iff {tokens : List Token} : StartsWithWord tokens ↔ ∃ u rest, tokens = u :: rest ∧ u.type = .word := by
  cases tokens with
  | nil => simp [StartsWithWord]
  | cons u rest => simp [StartsWithWord]

theorem targeted_of_run : ∀ command, ¬ Untargeted (runOf command) → Targeted command
  | [], _ => .stop rfl
  | t :: rest, h => by
    cases htype : t.type with
    | pipe => exact .stop (by simp [isCommandEnd, htype])
    | word =>
      rw [runOf_cons (by rw [htype]; decide), untargeted_cons, not_or] at h
      exact .word htype (targeted_of_run rest h.2)
    | infile =>
      rw [runOf_cons (by rw [htype]; decide), untargeted_cons, not_or, startsWithWord_runOf, not_and, not_not] at h
      obtain ⟨u, rest', rfl, hu⟩ := startsWithWord_iff.mp (h.1 (Or.inl htype))
      rw [runOf_cons (by rw [hu]; decide), untargeted_cons, not_or] at h
      exact .infile htype hu (targeted_of_run rest' h.2.2)
    | outfile =>
      rw [runOf_cons (by rw [htype]; decide), untargeted_cons, not_or, startsWithWord_runOf, not_and, not_not] at h
      obtain ⟨u, rest', rfl, hu⟩ := startsWithWord_iff.mp (h.1 (Or.inr htype))
      rw [runOf_cons (by rw [hu]; decide), untargeted_cons, not_or] at h
      exact .outfile htype hu (targeted_of_run rest' h.2.2)

section

variable {command : List Token} {t u : Token} {rest : List Token}

theorem args_stop (h : isCommandEnd command = true) : args command = [] := by
  cases command with
  | nil => rfl
  | cons t rest =>
    unfold args
    simp [show t.type = .pipe by simpa [isCommandEnd] using h]

theorem targets_stop (h : isCommandEnd command = true) : targets command = [] := by
  cases command with
  | nil => rfl
  | cons t rest =>
    unfold targets
    simp [show t.type = .pipe by simpa [isCommandEnd] using h]

theorem args_word (h : t.type = .word) : args (t :: rest) = t.text :: args rest := by
  conv_lhs => unfold args
  simp [h]

theorem targets_word (h : t.type = .word) : targets (t :: rest) = targets rest := by
  conv_lhs => unfold targets
  simp [h]

theorem args_infile (h : t.type = .infile) : args (t :: u :: rest) = args rest := by simp [args, h]

theorem targets_infile (h : t.type = .infile) : targets (t :: u :: rest) = (.read, u.text) :: targets rest := by
  simp [targets, h]

theorem args_outfile (h : t.type = .outfile) : args (t :: u :: rest) = args rest := by simp [args, h]

theorem targets_outfile (h : t.type = .outfile) : targets (t :: u :: rest) = (.write, u.text) :: targets rest := by
  simp [targets, h]

end

/-! ### The walks over a command -/

/-- The slots that hold `done`, and `k` that are still null. -/
def filled (done : List Text) (k : ℕ) : Argv := done.map some ++ List.replicate k none

theorem assign_filled (done : List Text) (k : ℕ) (x : Text) :
    assign (filled done (k + 1)) done.length (some x) = .ok (filled (done ++ [x]) k) := by
  unfold assign filled
  rw [if_pos (by simp), List.set_append_right _ _ (by simp), List.length_map, Nat.sub_self, List.replicate_succ,
    List.set_cons_zero]
  simp

theorem args_filled (done : List Text) (k : ℕ) : (filled done (k + 1)).args = done := by
  unfold Argv.args filled
  simp [List.replicate_succ]

variable {command : List Token}

namespace Pipe

theorem argcLoop_eq (h : Targeted command) (argc : ℕ) : argcLoop command argc = .ok (argc + (args command).length) := by
  induction h generalizing argc with
  | @stop command hstop =>
    rw [args_stop hstop]
    cases command with
    | nil => rfl
    | cons t rest =>
      unfold argcLoop
      simp [show t.type = .pipe by simpa [isCommandEnd] using hstop]
  | word ht _ ih =>
    rw [args_word ht, List.length_cons]
    unfold argcLoop
    simp only [ht, ih]
    congr 1
    omega
  | infile ht _ _ ih =>
    rw [args_infile ht]
    simp only [argcLoop, ht, ih]
  | outfile ht _ _ ih =>
    rw [args_outfile ht]
    simp only [argcLoop, ht, ih]

theorem argvLoop_eq (h : Targeted command) (done : List Text) (k : ℕ) :
    argvLoop command done.length (filled done ((args command).length + k)) = .ok (filled (done ++ args command) k) := by
  induction h generalizing done with
  | @stop command hstop =>
    rw [args_stop hstop, List.append_nil, List.length_nil, Nat.zero_add]
    cases command with
    | nil => rfl
    | cons t rest =>
      unfold argvLoop
      simp [show t.type = .pipe by simpa [isCommandEnd] using hstop]
  | @word t rest ht _ ih =>
    have ih := ih (done ++ [t.text])
    rw [args_word ht, List.length_cons, Nat.add_right_comm]
    unfold argvLoop
    simp only [ht, assign_filled]
    rw [List.append_assoc, List.singleton_append, List.length_append] at ih
    exact ih
  | infile ht _ _ ih =>
    rw [args_infile ht]
    simp only [argvLoop, ht, ih]
  | outfile ht _ _ ih =>
    rw [args_outfile ht]
    simp only [argvLoop, ht, ih]

theorem getArgv_eq (h : Targeted command) : getArgv command = .ok (filled (args command) 1) := by
  unfold getArgv getArgc
  rw [argcLoop_eq h, Nat.zero_add]
  exact argvLoop_eq h [] 1

/-- The walk opens the targets of its kinds of redirect, in order. -/
theorem validateIOAndOpenFile_eq (h : Targeted command) (f : σ → Mode → Text → σ) (first last : Bool) (s : σ) :
    validateIOAndOpenFile f first last command s =
      .ok (((targets command).filter fun x => if x.1 = .read then first else last).foldl (fun s x => f s x.1 x.2) s) := by
  induction h generalizing s with
  | @stop command hstop =>
    rw [targets_stop hstop]
    cases command with
    | nil => rfl
    | cons t rest =>
      unfold validateIOAndOpenFile
      simp [show t.type = .pipe by simpa [isCommandEnd] using hstop]
  | word ht _ ih =>
    rw [targets_word ht]
    unfold validateIOAndOpenFile
    simp only [ht, ih]
  | infile ht _ _ ih =>
    rw [targets_infile ht]
    simp only [validateIOAndOpenFile, ht, ih]
    cases first <;> simp
  | outfile ht _ _ ih =>
    rw [targets_outfile ht]
    simp only [validateIOAndOpenFile, ht, ih]
    cases last <;> simp

end Pipe

/-- How many files are opened for reading. -/
def reads (command : List Token) : ℕ := (targets command).countP fun x => x.1 = .read

namespace Io

/-- A line of `io` has no pipe in it. -/
theorem eq_nil_of_stop (hpipe : ∀ t ∈ command, t.type ≠ .pipe) (hstop : isCommandEnd command = true) : command = [] := by
  cases command with
  | nil => rfl
  | cons t rest => exact absurd (by simpa [isCommandEnd] using hstop) (hpipe t (List.mem_cons_self ..))

/-- A target of `<` is counted as an argument, too. -/
theorem openLoop_eq (h : Targeted command) (hpipe : ∀ t ∈ command, t.type ≠ .pipe) (dup : σ → Mode → Text → σ) (argc : ℕ)
    (s : σ) : openLoop dup command argc s =
      .ok (argc + (args command).length + reads command,
        (targets command).foldl (fun s x => dup s x.1 x.2) s) := by
  induction h generalizing argc s with
  | stop hstop =>
    rw [eq_nil_of_stop hpipe hstop]
    rfl
  | word ht _ ih =>
    rw [args_word ht, reads, targets_word ht, List.length_cons, ← reads]
    unfold openLoop
    simp only [ht, ih fun t h => hpipe t (List.mem_cons_of_mem _ h)]
    congr 2
    omega
  | infile ht hu _ ih =>
    rw [args_infile ht, reads, targets_infile ht, List.countP_cons_of_pos (by simp), List.foldl_cons, ← reads]
    unfold openLoop
    simp only [ht]
    unfold openLoop
    simp only [hu, ih fun t h => hpipe t (List.mem_cons_of_mem _ (List.mem_cons_of_mem _ h))]
    congr 2
    omega
  | outfile ht _ _ ih =>
    rw [args_outfile ht, reads, targets_outfile ht, List.countP_cons_of_neg (by simp), List.foldl_cons, ← reads]
    unfold openLoop
    simp only [ht, ih fun t h => hpipe t (List.mem_cons_of_mem _ (List.mem_cons_of_mem _ h))]

theorem argvLoop_eq (h : Targeted command) (hpipe : ∀ t ∈ command, t.type ≠ .pipe) (done : List Text) (k : ℕ) :
    argvLoop command done.length (filled done ((args command).length + k)) = .ok (filled (done ++ args command) k) := by
  induction h generalizing done with
  | stop hstop =>
    rw [eq_nil_of_stop hpipe hstop, args, List.append_nil, List.length_nil, Nat.zero_add]
    rfl
  | @word t rest ht _ ih =>
    have ih := ih (fun t h => hpipe t (List.mem_cons_of_mem _ h)) (done ++ [t.text])
    rw [args_word ht, List.length_cons, Nat.add_right_comm]
    unfold argvLoop
    simp only [ht, ne_eq, not_true_eq_false, if_false, assign_filled]
    rw [List.append_assoc, List.singleton_append, List.length_append] at ih
    exact ih
  | infile ht _ _ ih =>
    rw [args_infile ht]
    unfold argvLoop
    simp [ht, ih fun t h => hpipe t (List.mem_cons_of_mem _ (List.mem_cons_of_mem _ h))]
  | outfile ht _ _ ih =>
    rw [args_outfile ht]
    unfold argvLoop
    simp [ht, ih fun t h => hpipe t (List.mem_cons_of_mem _ (List.mem_cons_of_mem _ h))]

theorem checkIOSyntax_fst {rest : List Token} {syntaxError changed : Bool} :
    (checkIOSyntax rest syntaxError changed).1 = true ↔
      syntaxError = true ∨ allowance true changed = 0 ∨ ¬ StartsWithWord rest := by
  cases rest with
  | nil => simp [checkIOSyntax, StartsWithWord]
  | cons u rest => cases syntaxError <;> cases changed <;> simp [checkIOSyntax, StartsWithWord, allowance]

/-- The walk goes on after an error, and finds what `pipe`'s finds in a pipeline of one command. -/
theorem checkLoop_iff : ∀ (command : List Token) (inChanged outChanged syntaxError : Bool),
    (∀ t ∈ command, t.type ≠ .pipe) → (checkLoop command inChanged outChanged syntaxError = true ↔
      syntaxError = true ∨ Refused true true inChanged outChanged command)
  | [], inChanged, outChanged, syntaxError, _ => by
    simp [checkLoop, Refused, not_untargeted_nil, countIn, countOut]
  | t :: rest, inChanged, outChanged, syntaxError, hpipe => by
    have hrest : ∀ t ∈ rest, t.type ≠ .pipe := fun t h => hpipe t (List.mem_cons_of_mem _ h)
    cases htype : t.type with
    | pipe => exact absurd htype (hpipe t (List.mem_cons_self ..))
    | word =>
      have hstep : checkLoop (t :: rest) inChanged outChanged syntaxError =
          checkLoop rest inChanged outChanged syntaxError := by simp [checkLoop, htype]
      rw [hstep, checkLoop_iff rest _ _ _ hrest, refused_word htype]
    | infile =>
      have hstep : checkLoop (t :: rest) inChanged outChanged syntaxError =
          checkLoop rest true outChanged (checkIOSyntax rest syntaxError inChanged).1 := by
        simp [checkLoop, htype, checkIOSyntax]
      rw [hstep, checkLoop_iff rest _ _ _ hrest, refused_infile htype, checkIOSyntax_fst, or_assoc]
    | outfile =>
      have hstep : checkLoop (t :: rest) inChanged outChanged syntaxError =
          checkLoop rest inChanged true (checkIOSyntax rest syntaxError outChanged).1 := by
        simp [checkLoop, htype, checkIOSyntax]
      rw [hstep, checkLoop_iff rest _ _ _ hrest, refused_outfile htype, checkIOSyntax_fst, or_assoc]

end Io

theorem Base.argvLoop_eq : ∀ (command : List Token) (done : List Text) (k : ℕ), (∀ t ∈ command, t.type = .word) →
    argvLoop command.length command done.length (filled done (command.length + k)) = .ok (filled (done ++ args command) k)
  | [], done, k, _ => by
    rw [args, List.append_nil, List.length_nil, Nat.zero_add]
    rfl
  | t :: rest, done, k, hword => by
    have ih := argvLoop_eq rest (done ++ [t.text]) k fun t h => hword t (List.mem_cons_of_mem _ h)
    rw [List.append_assoc, List.singleton_append, List.length_append] at ih
    rw [args_word (hword t (List.mem_cons_self ..)), List.length_cons, Nat.add_right_comm]
    simp only [argvLoop, assign_filled]
    exact ih

/-! ### One command -/

/-- A line without pipes is one run. -/
theorem starts_single (hpipe : ∀ t ∈ command, t.type ≠ .pipe) : starts command = [command] := by
  unfold starts
  congr 1
  induction command with
  | nil => rfl
  | cons t rest ih =>
    rw [afterPipes, if_neg (hpipe t (List.mem_cons_self ..)), ih fun t h => hpipe t (List.mem_cons_of_mem _ h)]

theorem runOf_single (hpipe : ∀ t ∈ command, t.type ≠ .pipe) : runOf command = command := by
  induction command with
  | nil => rfl
  | cons t rest ih =>
    rw [runOf_cons (hpipe t (List.mem_cons_self ..)), ih fun t h => hpipe t (List.mem_cons_of_mem _ h)]

theorem runs_single (hpipe : ∀ t ∈ command, t.type ≠ .pipe) : runs command = [command] := by
  rw [splitOnP_starts, starts_single hpipe, List.map_singleton, runOf_single hpipe]

/-- What is refused in it is what makes it malformed. -/
theorem malformed_single (hnil : command ≠ []) : Malformed [command] ↔ Refused true true false false command := by
  rw [malformed_iff]
  constructor
  · rintro (h | ⟨j, run, hj, h⟩)
    · exact absurd (List.mem_singleton.mp h).symm hnil
    · cases j with
      | zero =>
        cases hj
        exact h
      | succ j => exact absurd hj (by simp)
  · exact fun h => Or.inr ⟨0, command, rfl, h⟩

theorem record_foldl (xs : List (Mode × Text)) (opens : List (Mode × Text)) :
    xs.foldl (fun s x => record s x.1 x.2) opens = opens ++ xs := by
  induction xs generalizing opens with
  | nil => exact (List.append_nil opens).symm
  | cons x xs ih =>
    rw [List.foldl_cons, ih, record, List.append_assoc, List.singleton_append]

/-- The program of a command that is alone in its line. -/
def Pipe.program (command : List Token) : Program :=
  ⟨filled (args command) 1, (targets command).filter (·.1 = .read) ++ (targets command).filter (·.1 = .write)⟩

/-- `io` makes a slot too many for the target of a `<`, and opens the files in the order of the line. -/
def Io.program (command : List Token) : Program :=
  ⟨filled (args command) (reads command + 1), targets command⟩

theorem filter_mode (opens : List (Mode × Text)) (m m' : Mode) :
    (opens.filter (·.1 = m')).filter (·.1 = m) = if m' = m then opens.filter (·.1 = m) else [] := by
  rw [List.filter_filter]
  split_ifs with h
  · rw [h]
    exact List.filter_congr fun x _ => Bool.and_self _
  · refine List.filter_eq_nil_iff.mpr fun x _ hx => h ?_
    rw [Bool.and_eq_true, decide_eq_true_iff, decide_eq_true_iff] at hx
    exact hx.2.symm.trans hx.1

theorem same_program (command : List Token) : (Pipe.program command).Same (Io.program command) := by
  refine ⟨by rw [Pipe.program, Io.program, args_filled, args_filled], fun mode => ?_⟩
  simp only [Pipe.program, Io.program, List.filter_append, filter_mode]
  cases mode with
  | read => exact List.append_nil _
  | write => rfl

theorem Pipe.children_eq (h : Targeted command) : children 1 0 [command] = .ok [program command] := by
  have hwrite : (targets command).filter (fun x => if x.1 = .read then false else true) =
      (targets command).filter (·.1 = .write) := List.filter_congr fun x _ => by cases x.1 <;> rfl
  have hread : (targets command).filter (fun x => if x.1 = .read then true else false) =
      (targets command).filter (·.1 = .read) := List.filter_congr fun x _ => by cases x.1 <;> rfl
  unfold children child
  simp only [beq_self_eq_true, if_true, validateIOAndOpenFile_eq h, getArgv_eq h, record_foldl]
  rw [hread, hwrite, List.nil_append]
  rfl

theorem targets_of_words : ∀ (command : List Token), (∀ t ∈ command, t.type = .word) → targets command = []
  | [], _ => rfl
  | t :: rest, h => by
    rw [targets_word (h t (List.mem_cons_self ..)), targets_of_words rest fun t ht => h t (List.mem_cons_of_mem _ ht)]

section

variable (hnil : command ≠ [])

include hnil

theorem length_ne_zero : ¬ command.length = 0 := fun h => hnil (List.length_eq_zero_iff.mp h)

theorem Pipe.interpret_refused (hpipe : ∀ t ∈ command, t.type ≠ .pipe) (h : Refused true true false false command) :
    interpret ⟨command.length, command⟩ = .ok .syntaxError := by
  obtain ⟨out, hexec, hverdict⟩ := exec_eq ⟨command.length, command⟩ rfl
  obtain rfl := (hverdict.syntaxError hnil).mpr (by rwa [runs_single hpipe, malformed_single hnil])
  unfold interpret
  rw [hexec]
  rfl

theorem Pipe.interpret_accepted (hpipe : ∀ t ∈ command, t.type ≠ .pipe) (h : ¬ Refused true true false false command) :
    interpret ⟨command.length, command⟩ = .ok (.launch [program command]) := by
  have htargeted := targeted_of_run command (by rw [runOf_single hpipe]; exact fun hn => h (Or.inl hn))
  obtain ⟨out, hexec, hverdict⟩ := exec_eq ⟨command.length, command⟩ rfl
  obtain rfl := hverdict.launch hnil (by rwa [runs_single hpipe, malformed_single hnil])
  unfold interpret
  rw [hexec]
  simp only [runs_single hpipe, starts_single hpipe]
  show (children 1 0 [command] >>= fun programs => .ok (Line.launch programs)) = _
  rw [children_eq htargeted]
  rfl

theorem Io.interpret_refused (hpipe : ∀ t ∈ command, t.type ≠ .pipe) (h : Refused true true false false command) :
    interpret ⟨command.length, command⟩ = .ok .syntaxError := by
  have hcheck : checkSyntax ⟨command.length, command⟩ = true := (checkLoop_iff command _ _ _ hpipe).mpr (Or.inr h)
  unfold interpret
  simp only [length_ne_zero hnil, if_false, hcheck, if_true]
  rfl

theorem Io.interpret_accepted (hpipe : ∀ t ∈ command, t.type ≠ .pipe) (h : ¬ Refused true true false false command) :
    interpret ⟨command.length, command⟩ = .ok (.launch [program command]) := by
  have htargeted := targeted_of_run command (by rw [runOf_single hpipe]; exact fun hn => h (Or.inl hn))
  have hcheck : checkSyntax ⟨command.length, command⟩ = false :=
    Bool.eq_false_iff.mpr fun hn => ((checkLoop_iff command _ _ _ hpipe).mp hn).elim nofun h
  have hargv := argvLoop_eq htargeted hpipe [] (reads command + 1)
  unfold interpret checkIOAndOpenFiles getArgv
  simp only [length_ne_zero hnil, if_false, hcheck, Bool.false_eq_true, openLoop_eq htargeted hpipe, Nat.zero_add,
    record_foldl, List.nil_append]
  show (do
    let argv ← argvLoop command 0 (filled [] ((args command).length + (reads command + 1)))
    return Line.launch [⟨argv, targets command⟩]) = _
  rw [show argvLoop command 0 _ = _ from hargv]
  rfl

theorem Base.interpret_words (hword : ∀ t ∈ command, t.type = .word) :
    interpret ⟨command.length, command⟩ = .ok (.launch [⟨filled (args command) 1, []⟩]) := by
  have hargv := argvLoop_eq command [] 1 hword
  unfold interpret getArgv
  simp only [length_ne_zero hnil, if_false]
  show (do
    let argv ← argvLoop command.length command 0 (filled [] (command.length + 1))
    return Line.launch [⟨argv, []⟩]) = _
  rw [show argvLoop command.length command 0 _ = _ from hargv]
  rfl

end

/-- Words alone are accepted. -/
theorem not_refused_words (hword : ∀ t ∈ command, t.type = .word) : ¬ Refused true true false false command := by
  rintro (⟨pre, t, post, rfl, ht, -⟩ | h | h)
  · have := hword t (by simp)
    rcases ht with ht | ht <;> rw [this] at ht <;> exact absurd ht (by decide)
  · have hzero : countIn command = 0 := List.countP_eq_zero.mpr fun t ht => by simp [hword t ht]
    exact absurd h (by rw [hzero]; exact Nat.not_lt_zero _)
  · have hzero : countOut command = 0 := List.countP_eq_zero.mpr fun t ht => by simp [hword t ht]
    exact absurd h (by rw [hzero]; exact Nat.not_lt_zero _)

/-- **The common language.** A line without a `|` token means the same to `pipe` and `io`, and to `base` as well if
it has no redirects. -/
theorem shells_agree (line : List Char) (hpipe : ∀ t ∈ (Pipe.tokenizerInit line).head, t.type ≠ .pipe) :
    ∃ pipe io, Pipe.interpret (Pipe.tokenizerInit line) = .ok pipe ∧ Io.interpret (Io.tokenizerInit line) = .ok io ∧
      pipe.Same io ∧ ((∀ t ∈ (Pipe.tokenizerInit line).head, t.type ≠ .infile ∧ t.type ≠ .outfile) →
        ∃ base, Base.interpret (Base.tokenizerInit line) = .ok base ∧ pipe.Same base) := by
  have hbase : (∀ t ∈ (Pipe.tokenizerInit line).head, t.type ≠ .infile ∧ t.type ≠ .outfile) →
      ∀ t ∈ (Pipe.tokenizerInit line).head, t.type = .word := fun h t ht => by
    have h1 := h t ht
    have h2 := hpipe t ht
    cases htype : t.type <;> simp_all
  have heq : Pipe.tokenizerInit line = ⟨(Pipe.tokenizerInit line).head.length, (Pipe.tokenizerInit line).head⟩ := rfl
  rw [Io.tokenizerInit_eq line hpipe]
  by_cases hnil : (Pipe.tokenizerInit line).head = []
  · refine ⟨.nothing, .nothing, ?_, ?_, trivial, fun h => ⟨.nothing, ?_, trivial⟩⟩
    · rw [heq, hnil]
      rfl
    · rw [heq, hnil]
      rfl
    · rw [Base.tokenizerInit_eq line (hbase h), heq, hnil]
      rfl
  by_cases href : Refused true true false false (Pipe.tokenizerInit line).head
  · refine ⟨.syntaxError, .syntaxError, ?_, ?_, trivial, fun h => absurd href (not_refused_words (hbase h))⟩
    · rw [heq]
      exact Pipe.interpret_refused hnil hpipe href
    · rw [heq]
      exact Io.interpret_refused hnil hpipe href
  · refine ⟨.launch [Pipe.program (Pipe.tokenizerInit line).head], .launch [Io.program (Pipe.tokenizerInit line).head],
      ?_, ?_, List.Forall₂.cons (same_program _) .nil, fun h =>
        ⟨.launch [⟨filled (args (Pipe.tokenizerInit line).head) 1, []⟩], ?_, ?_⟩⟩
    · rw [heq]
      exact Pipe.interpret_accepted hnil hpipe href
    · rw [heq]
      exact Io.interpret_accepted hnil hpipe href
    · rw [Base.tokenizerInit_eq line (hbase h), heq]
      exact Base.interpret_words hnil (hbase h)
    · refine List.Forall₂.cons ⟨rfl, fun mode => ?_⟩ .nil
      rw [Pipe.program, targets_of_words _ (hbase h)]
      rfl

/-- A line with both redirects. -/
theorem shells_agree_wc : ∃ pipe io, Pipe.interpret (Pipe.tokenizerInit "wc > b -c < a\n".toList) = .ok pipe ∧
    Io.interpret (Io.tokenizerInit "wc > b -c < a\n".toList) = .ok io ∧ pipe.Same io := by
  obtain ⟨pipe, io, h1, h2, h3, -⟩ := shells_agree "wc > b -c < a\n".toList (by decide)
  exact ⟨pipe, io, h1, h2, h3⟩

end Bash
end OsLabs
