/-
# What a session prints

`Exec` of `base/bash.h` and `io/bash.h` with the standard output of the processes. `printf` fills the buffer of a
process, `fork` copies what is in it, a program has an empty one, and `exit` writes it out. At any time the
first part of the buffer of the process that runs may be written, because it is full. A shell waits for its child, so
that the processes of a session are a stack; a child that comes back to `main`'s loop reads the next line. A shell that
a line with a `>` has started prints to that file.

What is printed is conserved (`run_total`): every message gets to the standard output, unless the process that printed it
has another one, and in addition every copy that a child has brought back to the loop. `messages_iff`: where none goes
elsewhere, there is one message for each line that fails if and only if no such child is forked while a message is in
the buffer.

Key definitions: `Base.exec`, `Io.exec`, `Shell`, `step`, `Shell.Heard`, `Shell.Once`.
-/
import OsLabs.Bash.Argv
import OsLabs.Lib.Run

namespace OsLabs
namespace Bash

open Run

def syntaxErrorText : Text := "Syntax error\n".toList

def ioErrorText : Text := "I/O error\n".toList

def commandNf : Text := "Command not found\n".toList

def prompt : Text := "$ ".toList

/-- What `execvp` makes of a child. -/
inductive Image
  | failed
  | program
  /-- This shell again. -/
  | shell
  deriving DecidableEq, Repr

/-- What a line has come to when its child goes on without its parent. -/
inductive Reply
  /-- There is no child. -/
  | nothing
  /-- The child has printed `text`, and is in `main`'s loop. -/
  | returns (text : Text)
  | becomes (image : Image)
  deriving DecidableEq, Repr

/-- The loop that frees what `argv` points to, `tokenCount` times. -/
def freeArgv (argv : Argv) (tokenCount : ℕ) : Except Fault Unit :=
  if tokenCount ≤ argv.length then .ok () else .error .bounds

def Base.exec (tokenizer : Tokenizer) (image : Image) : Except Fault Reply := do
  if tokenizer.tokenCount = 0 then return .nothing
  let argv ← getArgv tokenizer
  if image = .failed then
    freeArgv argv tokenizer.tokenCount
    return .returns commandNf
  return .becomes image

/-- `opens` says which files can be opened. Behind an I/O error there is no `argv` to free. -/
def Io.exec (tokenizer : Tokenizer) (opens : Mode → Text → Bool) (image : Image) : Except Fault Reply := do
  if tokenizer.tokenCount = 0 then return .nothing
  if checkSyntax tokenizer then return .returns syntaxErrorText
  let (argc, ioError) ← checkIOAndOpenFiles (fun ioError mode path => ioError || !opens mode path) tokenizer false
  if ioError then return .returns ioErrorText
  let argv ← getArgv tokenizer argc
  if image = .failed then
    freeArgv argv tokenizer.tokenCount
    return .returns commandNf
  return .becomes image

/-! ### The two shells -/

/-- A shell, with what its `Exec` can do with a line. -/
structure Shell where
  exec : List Char → (Mode → Text → Bool) → Image → Except Fault Reply
  /-- `execvp` is called, and fails. -/
  fails : List Char → (Mode → Text → Bool) → Image → Bool
  /-- The child comes back to `main`'s loop. -/
  back : List Char → (Mode → Text → Bool) → Image → Bool
  /-- The loop that frees `argv` runs past its end. -/
  overruns : List Char → (Mode → Text → Bool) → Image → Bool
  /-- The file that the standard output of the program goes to. -/
  outfile : List Char → Option Text
  fails_iff : ∀ {text opens image reply}, exec text opens image = .ok reply →
    (reply = .returns commandNf ↔ fails text opens image = true)
  back_iff : ∀ {text opens image reply}, exec text opens image = .ok reply →
    ((∃ message, reply = .returns message) ↔ back text opens image = true)
  overruns_iff : ∀ {text opens image}, (∃ f, exec text opens image = .error f) ↔ overruns text opens image = true

section

variable {command : List Token} {opens : Mode → Text → Bool} {image : Image}

theorem length_filled (done : List Text) (k : ℕ) : (filled done k).length = done.length + k := by
  simp [filled]

theorem length_args : ∀ (command : List Token), (∀ t ∈ command, t.type = .word) → (args command).length = command.length
  | [], _ => rfl
  | t :: rest, hword => by
    rw [args_word (hword t (List.mem_cons_self ..)), List.length_cons, List.length_cons,
      length_args rest fun t h => hword t (List.mem_cons_of_mem _ h)]

/-- `argv` of `base` has a slot for every token. -/
theorem Base.exec_eq (hnil : command ≠ []) (hword : ∀ t ∈ command, t.type = .word) (image : Image) :
    exec ⟨command.length, command⟩ image = .ok (if image = .failed then .returns commandNf else .becomes image) := by
  have hargv : getArgv ⟨command.length, command⟩ = .ok (filled (args command) 1) := argvLoop_eq command [] 1 hword
  have hfree : freeArgv (filled (args command) 1) command.length = .ok () := by
    rw [freeArgv, length_filled, length_args command hword, if_pos (Nat.le_succ _)]
  unfold exec
  simp only [length_ne_zero hnil, if_false, hargv, ok_bind]
  split_ifs
  · rw [hfree]
    rfl
  · rfl

/-- A redirect takes two tokens; the target of `<` has a slot in `argv` all the same. -/
theorem length_targeted (h : Targeted command) (hpipe : ∀ t ∈ command, t.type ≠ .pipe) :
    command.length = (args command).length + 2 * reads command + 2 * countOut command ∧ countIn command = reads command := by
  induction h with
  | stop hstop =>
    rw [Io.eq_nil_of_stop hpipe hstop]
    exact ⟨rfl, rfl⟩
  | @word t rest ht _ ih =>
    have ih := ih fun t h => hpipe t (List.mem_cons_of_mem _ h)
    simp only [reads, countIn, countOut] at ih ⊢
    simp only [args_word ht, targets_word ht, List.length_cons, List.countP_cons, ht]
    simp
    omega
  | @infile t u rest ht hu _ ih =>
    have ih := ih fun t h => hpipe t (List.mem_cons_of_mem _ (List.mem_cons_of_mem _ h))
    simp only [reads, countIn, countOut] at ih ⊢
    simp only [args_infile ht, targets_infile ht, List.length_cons, List.countP_cons, ht, hu]
    simp
    omega
  | @outfile t u rest ht hu _ ih =>
    have ih := ih fun t h => hpipe t (List.mem_cons_of_mem _ (List.mem_cons_of_mem _ h))
    simp only [reads, countIn, countOut] at ih ⊢
    simp only [args_outfile ht, targets_outfile ht, List.length_cons, List.countP_cons, ht, hu]
    simp
    omega

theorem foldl_ioError (opens : Mode → Text → Bool) (xs : List (Mode × Text)) (ioError : Bool) :
    xs.foldl (fun ioError x => ioError || !opens x.1 x.2) ioError = (ioError || !xs.all fun x => opens x.1 x.2) := by
  induction xs generalizing ioError with
  | nil => simp
  | cons x xs ih => rw [List.foldl_cons, ih, List.all_cons, Bool.not_and, Bool.or_assoc]

theorem Io.exec_refused (hnil : command ≠ []) (hcheck : checkSyntax ⟨command.length, command⟩ = true) :
    exec ⟨command.length, command⟩ opens image = .ok (.returns syntaxErrorText) := by
  unfold exec
  simp only [length_ne_zero hnil, if_false, hcheck, if_true]
  rfl

/-- The slots of `argv` and the tokens that are freed: they agree if there is no `>`. -/
theorem freeArgv_line (h : Targeted command) (hpipe : ∀ t ∈ command, t.type ≠ .pipe) (hle : countIn command ≤ 1) :
    freeArgv (filled (args command) (reads command + 1)) command.length =
      if command.any fun t => t.type = .outfile then .error .bounds else .ok () := by
  obtain ⟨hlen, hin⟩ := length_targeted h hpipe
  have hout : (command.any fun t => t.type = .outfile) = true ↔ 0 < countOut command := by
    rw [countOut, List.countP_pos_iff, List.any_eq_true]
  unfold freeArgv
  rw [length_filled, hlen]
  by_cases hzero : 0 < countOut command
  · rw [if_neg (by omega), if_pos (hout.mpr hzero)]
  · rw [if_pos (by omega), if_neg (fun hn => hzero (hout.mp hn))]

namespace Io

/-- What `CheckSyntax` has seen to. -/
theorem targeted_of_check (hpipe : ∀ t ∈ command, t.type ≠ .pipe)
    (hcheck : checkSyntax ⟨command.length, command⟩ = false) :
    Targeted command ∧ countIn command ≤ 1 ∧ countOut command ≤ 1 := by
  have hok : ¬ Refused true true false false command := fun hn => by
    have := (checkLoop_iff command false false false hpipe).mpr (Or.inr hn)
    exact absurd (hcheck.symm.trans this) nofun
  simp only [Refused, not_or, not_lt] at hok
  exact ⟨targeted_of_run command (by rw [runOf_single hpipe]; exact hok.1), hok.2.1, hok.2.2⟩

/-- `Exec` with any state for what the walk over the redirects does: `dup` opens a target, `undo` is behind the walk,
and `failed` reads `io_error`. -/
def execWith {σ : Type} (dup : σ → Mode → Text → σ) (undo : σ → σ) (failed : σ → Bool) (tokenizer : Tokenizer) (image : Image)
    (s : σ) : Except Fault (Reply × σ) := do
  if tokenizer.tokenCount = 0 then return (.nothing, s)
  if checkSyntax tokenizer then return (.returns syntaxErrorText, s)
  let (argc, s) ← checkIOAndOpenFiles dup tokenizer s
  let s := undo s
  if failed s then return (.returns ioErrorText, s)
  let argv ← getArgv tokenizer argc
  if image = .failed then
    freeArgv argv tokenizer.tokenCount
    return (.returns commandNf, s)
  return (.becomes image, s)

theorem exec_eq_with (tokenizer : Tokenizer) (opens : Mode → Text → Bool) (image : Image) :
    exec tokenizer opens image =
      (execWith (fun ioError mode path => ioError || !opens mode path) id id tokenizer image false).map Prod.fst := by
  unfold exec execWith
  by_cases hcount : tokenizer.tokenCount = 0
  · rw [if_pos hcount, if_pos hcount]
    rfl
  by_cases hcheck : checkSyntax tokenizer = true
  · rw [if_neg hcount, if_neg hcount, if_pos hcheck, if_pos hcheck]
    rfl
  rw [if_neg hcount, if_neg hcount, if_neg hcheck, if_neg hcheck]
  cases checkIOAndOpenFiles (fun ioError mode path => ioError || !opens mode path) tokenizer false with
  | error f => rfl
  | ok x =>
    obtain ⟨argc, ioError⟩ := x
    cases ioError with
    | true => rfl
    | false =>
      simp only [ok_bind, id, Bool.false_eq_true, if_false]
      cases getArgv tokenizer argc with
      | error f => rfl
      | ok argv =>
        simp only [ok_bind]
        split_ifs
        · cases freeArgv argv tokenizer.tokenCount <;> rfl
        · rfl

/-- The walk over the redirects of a line without syntax errors. -/
theorem openFiles_eq {σ : Type} (hpipe : ∀ t ∈ command, t.type ≠ .pipe) (hcheck : checkSyntax ⟨command.length, command⟩ = false)
    (dup : σ → Mode → Text → σ) (s : σ) : checkIOAndOpenFiles dup ⟨command.length, command⟩ s =
      .ok ((args command).length + reads command, (targets command).foldl (fun s x => dup s x.1 x.2) s) := by
  unfold checkIOAndOpenFiles
  rw [openLoop_eq (targeted_of_check hpipe hcheck).1 hpipe, Nat.zero_add]

/-- What happens to such a line. -/
theorem execWith_accepted {σ : Type} (hnil : command ≠ []) (hpipe : ∀ t ∈ command, t.type ≠ .pipe)
    (hcheck : checkSyntax ⟨command.length, command⟩ = false) (dup : σ → Mode → Text → σ) (undo : σ → σ)
    (failed : σ → Bool) (s : σ) : execWith dup undo failed ⟨command.length, command⟩ image s =
      let o := undo ((targets command).foldl (fun s x => dup s x.1 x.2) s)
      if failed o then .ok (.returns ioErrorText, o)
      else if image = .failed then
        if command.any fun t => t.type = .outfile then .error .bounds else .ok (.returns commandNf, o)
      else .ok (.becomes image, o) := by
  obtain ⟨htargeted, hin, -⟩ := targeted_of_check hpipe hcheck
  have hopen := openFiles_eq hpipe hcheck dup s
  have hargv : getArgv ⟨command.length, command⟩ ((args command).length + reads command) =
      .ok (filled (args command) (reads command + 1)) := argvLoop_eq htargeted hpipe [] (reads command + 1)
  unfold execWith
  simp only [length_ne_zero hnil, if_false, hcheck, Bool.false_eq_true, hopen, ok_bind, hargv,
    freeArgv_line htargeted hpipe hin]
  split_ifs <;> rfl

theorem exec_accepted (hnil : command ≠ []) (hpipe : ∀ t ∈ command, t.type ≠ .pipe)
    (hcheck : checkSyntax ⟨command.length, command⟩ = false) : exec ⟨command.length, command⟩ opens image =
      if (targets command).all fun x => opens x.1 x.2 then
        if image = .failed then
          if command.any fun t => t.type = .outfile then .error .bounds else .ok (.returns commandNf)
        else .ok (.becomes image)
      else .ok (.returns ioErrorText) := by
  rw [exec_eq_with, execWith_accepted hnil hpipe hcheck]
  simp only [foldl_ioError, Bool.false_or, id]
  cases (targets command).all fun x => opens x.1 x.2 with
  | false => rfl
  | true =>
    cases image with
    | failed => cases command.any fun t => t.type = .outfile <;> rfl
    | _ => rfl

end Io

end

theorem Base.exec_line (line : List Char) (image : Image) : exec (tokenizerInit line) image =
    .ok (if (tokenizerInit line).head = [] then .nothing
      else if image = .failed then .returns commandNf
      else .becomes image) := by
  by_cases hnil : (tokenizerInit line).head = []
  · rw [if_pos hnil]
    have hlen : (tokenizerInit line).tokenCount = 0 := List.length_eq_zero_iff.mpr hnil
    unfold exec
    rw [if_pos hlen]
    rfl
  · rw [if_neg hnil]
    exact exec_eq hnil (words line) image

/-- All files that the line redirects to or from can be opened. -/
def Io.opensAll (line : List Char) (opens : Mode → Text → Bool) : Bool :=
  (targets (tokenizerInit line).head).all fun x => opens x.1 x.2

theorem Io.exec_line (line : List Char) (opens : Mode → Text → Bool) (image : Image) :
    exec (tokenizerInit line) opens image =
      if (tokenizerInit line).head = [] then .ok .nothing
      else if checkSyntax (tokenizerInit line) then .ok (.returns syntaxErrorText)
      else if opensAll line opens then
        if image = .failed then
          if (tokenizerInit line).head.any fun t => t.type = .outfile then .error .bounds else .ok (.returns commandNf)
        else .ok (.becomes image)
      else .ok (.returns ioErrorText) := by
  by_cases hnil : (tokenizerInit line).head = []
  · rw [if_pos hnil]
    have hlen : (tokenizerInit line).tokenCount = 0 := List.length_eq_zero_iff.mpr hnil
    unfold exec
    rw [if_pos hlen]
    rfl
  · rw [if_neg hnil]
    cases hcheck : checkSyntax (tokenizerInit line) with
    | true => exact exec_refused hnil hcheck
    | false => exact exec_accepted hnil (no_pipe line) hcheck

def Base.shell : Shell where
  exec line _ image := exec (tokenizerInit line) image
  fails line _ image := (tokenizerInit line).head ≠ [] && image = .failed
  back line _ image := (tokenizerInit line).head ≠ [] && image = .failed
  overruns _ _ _ := false
  outfile _ := none
  fails_iff {line _ image reply} h := by
    rw [exec_line] at h
    cases h
    by_cases hnil : (tokenizerInit line).head = [] <;> cases image <;> simp [hnil]
  back_iff {line _ image reply} h := by
    rw [exec_line] at h
    cases h
    by_cases hnil : (tokenizerInit line).head = [] <;> cases image <;> simp [hnil]
  overruns_iff {line _ image} := by simp [exec_line]

def Io.shell : Shell where
  exec line opens image := exec (tokenizerInit line) opens image
  fails line opens image := (tokenizerInit line).head ≠ [] && !checkSyntax (tokenizerInit line) && opensAll line opens &&
    image = .failed
  back line opens image := (tokenizerInit line).head ≠ [] && (checkSyntax (tokenizerInit line) || !opensAll line opens ||
    image = .failed)
  overruns line opens image := (tokenizerInit line).head ≠ [] && !checkSyntax (tokenizerInit line) && opensAll line opens &&
    image = .failed && (tokenizerInit line).head.any fun t => t.type = .outfile
  outfile line := ((targets (tokenizerInit line).head).find? fun x => x.1 = .write).map Prod.snd
  fails_iff {line opens image reply} h := by
    have hne : syntaxErrorText ≠ commandNf ∧ ioErrorText ≠ commandNf := by decide
    rw [exec_line] at h
    split_ifs at h with hnil hcheck hopen himage hout <;> cases h <;> simp [*]
  back_iff {line opens image reply} h := by
    rw [exec_line] at h
    split_ifs at h with hnil hcheck hopen himage hout <;> cases h <;> simp [*]
  overruns_iff {line opens image} := by
    rw [exec_line]
    split_ifs with hnil hcheck hopen himage hout <;> simp [*]

/-! ### The session -/

/-- A process of the session: its buffer, and whether its standard output is still that of the session. -/
structure Frame where
  buffer : List Text
  here : Bool
  deriving DecidableEq, Repr

/-- What of the texts gets to the standard output of the session. -/
def Frame.shows (f : Frame) (texts : List Text) : List Text := if f.here then texts else []

/-- The texts that have been written, and the processes; the first is the one that runs. -/
structure Session where
  out : List Text
  frames : List Frame
  deriving DecidableEq, Repr

/-- The process that runs. -/
def Session.top (s : Session) : Frame := s.frames.headD ⟨[], false⟩

inductive Input
  /-- `leads` says of a target of `>` whether it is the standard output of the session, as `/dev/stdout` can be. -/
  | line (text : List Char) (opens : Mode → Text → Bool) (leads : Text → Bool) (image : Image)
  | eof
  /-- The buffer is full: its first `n` texts are written. -/
  | flush (n : ℕ)

namespace Shell

variable (sh : Shell)

/-- Where the standard output of a program leads that the line starts. -/
def leadsHere (text : List Char) (leads : Text → Bool) (here : Bool) : Bool :=
  match sh.outfile text with
  | none => here
  | some path => leads path

def step (s : Session) (e : Input) : Except Stop Session :=
  match s.frames with
  | [] => .error .refused
  | f :: rest =>
    match e with
    | .line text opens leads image =>
      match sh.exec text opens image with
      | .error x => .error (.fault x)
      | .ok .nothing => .ok { s with frames := ⟨f.buffer ++ [prompt], f.here⟩ :: rest }
      | .ok (.returns message) => .ok { s with frames := ⟨f.buffer ++ [message, prompt], f.here⟩ :: f :: rest }
      | .ok (.becomes .shell) => .ok { s with frames := ⟨[prompt], sh.leadsHere text leads f.here⟩ :: f :: rest }
      | .ok (.becomes _) => .ok { s with frames := ⟨f.buffer ++ [prompt], f.here⟩ :: rest }
    | .eof =>
      .ok ⟨s.out ++ f.shows (f.buffer ++ ["\n".toList]),
        match rest with
        | [] => []
        | g :: rest => ⟨g.buffer ++ [prompt], g.here⟩ :: rest⟩
    | .flush n => .ok ⟨s.out ++ f.shows (f.buffer.take n), ⟨f.buffer.drop n, f.here⟩ :: rest⟩

/-- The lines whose `execvp` fails. -/
def failures (es : List Input) : ℕ :=
  es.countP fun e =>
    match e with
    | .line text opens _ image => sh.fails text opens image
    | _ => false

/-- A line whose `execvp` fails has been read by a process with the standard output of the session. -/
def Heard (s : Session) : Input → Prop
  | .line text opens _ image => sh.fails text opens image = true → s.top.here = true
  | _ => True

/-- No child comes back to the loop with a copy of a message for the session's standard output, and no `argv` is overrun. -/
def Once (s : Session) : Input → Prop
  | .line text opens _ image => sh.overruns text opens image = false ∧
    (sh.back text opens image = true → s.top.here = true → commandNf ∉ s.top.buffer)
  | _ => True

instance (s : Session) : (e : Input) → Decidable (sh.Heard s e)
  | .line text opens _ image => inferInstanceAs (Decidable (sh.fails text opens image = true → s.top.here = true))
  | .eof => inferInstanceAs (Decidable True)
  | .flush _ => inferInstanceAs (Decidable True)

instance (s : Session) : (e : Input) → Decidable (sh.Once s e)
  | .line text opens _ image => inferInstanceAs (Decidable (sh.overruns text opens image = false ∧
    (sh.back text opens image = true → s.top.here = true → commandNf ∉ s.top.buffer)))
  | .eof => inferInstanceAs (Decidable True)
  | .flush _ => inferInstanceAs (Decidable True)

end Shell

/-- A shell that prints its first prompt. -/
def Session.init : Session := ⟨[], [⟨[prompt], true⟩]⟩

/-- How many messages there are for the session's standard output: written, and in the buffers. -/
def Session.total (s : Session) : ℕ :=
  s.out.count commandNf + (s.frames.map fun f => (f.shows f.buffer).count commandNf).sum

namespace Shell

section

variable {sh : Shell} {s s' : Session} {e : Input}

theorem count_returns (message : Text) : [message, prompt].count commandNf = if message = commandNf then 1 else 0 := by
  have hprompt : prompt ≠ commandNf := by decide
  by_cases h : message = commandNf <;> simp [h, hprompt]

/-- What a process shows of a text is shown piece by piece. -/
theorem count_shows_append (f : Frame) (xs ys : List Text) :
    (f.shows (xs ++ ys)).count commandNf = (f.shows xs).count commandNf + (f.shows ys).count commandNf := by
  unfold Frame.shows
  split_ifs
  · exact List.count_append
  · rfl

theorem count_shows_prompt (f : Frame) : (f.shows [prompt]).count commandNf = 0 := by
  have hprompt : [prompt].count commandNf = 0 := by decide
  unfold Frame.shows
  split_ifs
  · exact hprompt
  · rfl

/-- A step makes the message of a line that fails, unless it goes elsewhere, and a copy of all that a child brings back. -/
theorem step_total (h : sh.step s e = .ok s') : ∃ lost copies, s'.total + lost = s.total + sh.failures [e] + copies ∧
    (lost = 0 ↔ sh.Heard s e) ∧ (copies = 0 ↔ sh.Once s e) := by
  obtain ⟨out, frames⟩ := s
  cases frames with
  | nil => exact absurd h nofun
  | cons f rest =>
    cases e with
    | eof =>
      cases h
      refine ⟨0, 0, ?_, iff_of_true rfl trivial, iff_of_true rfl trivial⟩
      have hnl : (f.shows ["\n".toList]).count commandNf = 0 := by
        have : ["\n".toList].count commandNf = 0 := by decide
        unfold Frame.shows
        split_ifs
        · exact this
        · rfl
      cases rest with
      | nil =>
        simp only [Session.total, failures, List.count_append, count_shows_append, hnl, List.map_cons, List.map_nil,
          List.sum_cons, List.sum_nil, List.countP_cons, List.countP_nil]
        simp
      | cons g rest =>
        have hprompt : (Frame.shows ⟨g.buffer ++ [prompt], g.here⟩ (g.buffer ++ [prompt])).count commandNf =
            (g.shows g.buffer).count commandNf := by
          rw [count_shows_append, count_shows_prompt]
          rfl
        simp only [Session.total, failures, List.count_append, count_shows_append, hnl, List.map_cons, List.sum_cons,
          List.countP_cons, List.countP_nil]
        rw [count_shows_append] at hprompt
        simp
        omega
    | flush n =>
      cases h
      refine ⟨0, 0, ?_, iff_of_true rfl trivial, iff_of_true rfl trivial⟩
      have hsplit : (f.shows (f.buffer.take n)).count commandNf + (f.shows (f.buffer.drop n)).count commandNf =
          (f.shows f.buffer).count commandNf := by
        rw [← count_shows_append, List.take_append_drop]
      have hdrop : (Frame.shows ⟨f.buffer.drop n, f.here⟩ (f.buffer.drop n)).count commandNf =
          (f.shows (f.buffer.drop n)).count commandNf := rfl
      simp only [Session.total, failures, List.count_append, List.map_cons, List.sum_cons, List.countP_cons, List.countP_nil,
        hdrop]
      simp
      omega
    | line text opens leads image =>
      unfold step at h
      cases hexec : sh.exec text opens image with
      | error x =>
        simp only [hexec] at h
        exact absurd h nofun
      | ok reply =>
        have hfails := sh.fails_iff hexec
        have hback := sh.back_iff hexec
        have hsound : sh.overruns text opens image = false := by
          rw [← Bool.not_eq_true, ← sh.overruns_iff, hexec]
          exact fun ⟨x, hx⟩ => absurd hx nofun
        have hfailures : sh.failures [.line text opens leads image] = if reply = .returns commandNf then 1 else 0 := by
          simp only [failures, List.countP_cons, List.countP_nil, hfails, Nat.zero_add]
        have hquiet : ∀ texts, [prompt] = texts ∨ texts = [] →
            (Frame.shows ⟨f.buffer ++ texts, f.here⟩ (f.buffer ++ texts)).count commandNf = (f.shows f.buffer).count commandNf := by
          rintro texts (rfl | rfl)
          · rw [count_shows_append, count_shows_prompt]
            rfl
          · rw [List.append_nil]
        simp only [hexec] at h
        rw [hfailures]
        cases reply with
        | nothing =>
          cases h
          have hno : sh.back text opens image ≠ true := fun hn => by simpa using hback.mpr hn
          have hsilent : sh.fails text opens image ≠ true := fun hn => absurd (hfails.mpr hn) nofun
          refine ⟨0, 0, ?_, iff_of_true rfl fun hn => absurd hn hsilent, iff_of_true rfl ⟨hsound, fun hn => absurd hn hno⟩⟩
          simp only [Session.total, List.map_cons, List.sum_cons, hquiet _ (.inl rfl)]
          simp
        | returns message =>
          cases h
          have hyes : sh.back text opens image = true := hback.mp ⟨message, rfl⟩
          obtain ⟨buffer, here⟩ := f
          cases here with
          | true =>
            refine ⟨0, buffer.count commandNf, ?_, iff_of_true rfl fun _ => rfl, ?_⟩
            · simp only [Session.total, Frame.shows, if_true, List.map_cons, List.sum_cons, List.count_append, count_returns,
                Reply.returns.injEq]
              omega
            · rw [List.count_eq_zero]
              exact ⟨fun hn => ⟨hsound, fun _ _ => hn⟩, fun hn => hn.2 hyes rfl⟩
          | false =>
            refine ⟨if message = commandNf then 1 else 0, 0, ?_, ?_, iff_of_true rfl ⟨hsound, fun _ hn => absurd hn nofun⟩⟩
            · simp only [Session.total, Frame.shows, Bool.false_eq_true, if_false, List.map_cons, List.sum_cons, List.count_nil,
                Reply.returns.injEq]
              omega
            · simp only [Heard, Session.top, List.headD_cons, ← hfails, Reply.returns.injEq]
              by_cases hm : message = commandNf <;> simp [hm]
        | becomes image' =>
          have hno : sh.back text opens image ≠ true := fun hn => by simpa using hback.mpr hn
          have hsilent : sh.fails text opens image ≠ true := fun hn => absurd (hfails.mpr hn) nofun
          refine ⟨0, 0, ?_, iff_of_true rfl fun hn => absurd hn hsilent, iff_of_true rfl ⟨hsound, fun hn => absurd hn hno⟩⟩
          cases image' <;> cases h <;>
            simp only [Session.total, List.map_cons, List.sum_cons, hquiet _ (.inl rfl), count_shows_prompt] <;> simp

/-- And so does a run. -/
theorem run_total : ∀ (es : List Input) {s s' : Session}, run sh.step s es = .ok s' →
    ∃ lost copies, s'.total + lost = s.total + sh.failures es + copies ∧
      (lost = 0 ↔ Along sh.step sh.Heard s es) ∧ (copies = 0 ↔ Along sh.step sh.Once s es) := by
  intro es
  induction es with
  | nil =>
    intro s s' h
    cases h
    exact ⟨0, 0, rfl, iff_of_true rfl trivial, iff_of_true rfl trivial⟩
  | cons e es ih =>
    intro s s' h
    cases hs : sh.step s e with
    | error x =>
      rw [run_cons_error es hs] at h
      exact absurd h nofun
    | ok s₁ =>
      rw [run_cons_ok es hs] at h
      obtain ⟨l₁, n₁, h1, hlost1, hiff1⟩ := step_total hs
      obtain ⟨l₂, n₂, h2, hlost2, hiff2⟩ := ih h
      have hsplit : sh.failures (e :: es) = sh.failures [e] + sh.failures es := @List.countP_append _ _ [e] es
      refine ⟨l₁ + l₂, n₁ + n₂, by omega, ?_, ?_⟩
      · rw [along_cons_ok hs, ← hlost1, ← hlost2, Nat.add_eq_zero_iff]
      · rw [along_cons_ok hs, ← hiff1, ← hiff2, Nat.add_eq_zero_iff]

/-- A session whose lines overrun no `argv` comes to no fault. -/
theorem run_sound (es : List Input) {s : Session} (h : Along sh.step sh.Once s es) :
    Sat (fun _ => True) (· = .refused) (run sh.step s es) := by
  refine run_sat (I := fun _ => True) (fun t e _ honce => ?_) es trivial h
  unfold step
  cases t.frames with
  | nil => exact rfl
  | cons f rest =>
    cases e with
    | line text opens leads image =>
      simp only
      cases hexec : sh.exec text opens image with
      | error x =>
        have hover := sh.overruns_iff.mp ⟨x, hexec⟩
        rw [honce.1] at hover
        exact absurd hover nofun
      | ok reply =>
        cases reply with
        | becomes image' => cases image' <;> trivial
        | _ => trivial
    | _ => trivial

end

/-- All processes of the session have exited, or one has run past the end of an `argv`. -/
def Complete (r : Except Stop Session) : Prop := Sat (fun s => s.frames = []) (· ≠ .refused) r

/-- Where the failures of `es` are heard, there is one message for each if and only if none is copied. -/
theorem messages_iff (sh : Shell) (es : List Input) (h : Complete (run sh.step .init es))
    (hheard : Along sh.step sh.Heard .init es) :
    (∃ s, run sh.step .init es = .ok s ∧ s.out.count commandNf = sh.failures es) ↔ Along sh.step sh.Once .init es := by
  have hinit : Session.init.total = 0 := by decide
  have htotal : ∀ s, run sh.step .init es = .ok s → s.total = s.out.count commandNf := fun s hs => by
    rw [hs] at h
    have hnil : s.frames = [] := h
    simp [Session.total, hnil]
  constructor
  · rintro ⟨s, hs, hcount⟩
    obtain ⟨lost, copies, hn, hlost, hiff⟩ := run_total es hs
    apply hiff.mp
    have hzero := hlost.mpr hheard
    rw [htotal s hs] at hn
    omega
  · intro honce
    have hsound := run_sound es honce
    cases hs : run sh.step .init es with
    | error x =>
      rw [hs] at hsound h
      exact absurd hsound h
    | ok s =>
      obtain ⟨lost, copies, hn, hlost, hiff⟩ := run_total es hs
      rw [htotal s hs, hlost.mpr hheard, hiff.mpr honce] at hn
      exact ⟨s, rfl, by omega⟩

end Shell

/-- **One message for each line that fails.** So it is in a session of `base` or `io` whose failing lines are read by processes with
the standard output of the session, if and only if no child comes back to the loop with a message in its buffer, and no line
with a `>` fails in `io`. -/
theorem one_message_each (es : List Input) :
    (Shell.Complete (run Base.shell.step .init es) → Along Base.shell.step Base.shell.Heard .init es →
      ((∃ s, run Base.shell.step .init es = .ok s ∧ s.out.count commandNf = Base.shell.failures es) ↔
        Along Base.shell.step Base.shell.Once .init es)) ∧
    (Shell.Complete (run Io.shell.step .init es) → Along Io.shell.step Io.shell.Heard .init es →
      ((∃ s, run Io.shell.step .init es = .ok s ∧ s.out.count commandNf = Io.shell.failures es) ↔
        Along Io.shell.step Io.shell.Once .init es)) :=
  ⟨Base.shell.messages_iff es, Io.shell.messages_iff es⟩

/-- A line whose command is not there. -/
def foo : Input := .line "foo\n".toList (fun _ _ => true) (fun _ => false) .failed

/-- A line that starts the shell with its output in `f`. -/
def inner : Input := .line "shell >f\n".toList (fun _ _ => true) (fun _ => false) .shell

/-- The child reads the end of the file before the second line comes. -/
theorem one_message_each_eof :
    (∃ s, run Base.shell.step .init [foo, .eof, foo, .eof, .eof] = .ok s ∧ s.out.count commandNf = 2) ∧
    ∃ s, run Io.shell.step .init [foo, .eof, foo, .eof, .eof] = .ok s ∧ s.out.count commandNf = 2 := by
  have h := one_message_each [foo, .eof, foo, .eof, .eof]
  have hbase : Shell.Complete (run Base.shell.step .init [foo, .eof, foo, .eof, .eof]) :=
    show Sat _ _ _ by decide +kernel
  have hio : Shell.Complete (run Io.shell.step .init [foo, .eof, foo, .eof, .eof]) := show Sat _ _ _ by decide +kernel
  exact ⟨(h.1 hbase (by decide +kernel)).mpr (by decide +kernel), (h.2 hio (by decide +kernel)).mpr (by decide +kernel)⟩

/-- Two lines fail, and there are three messages. -/
theorem message_twice : (∃ s, run Base.shell.step .init [foo, foo, .eof, .eof, .eof] = .ok s ∧ s.frames = [] ∧
      s.out.count commandNf = 3) ∧ Base.shell.failures [foo, foo, .eof, .eof, .eof] = 2 ∧
    (∃ s, run Io.shell.step .init [foo, foo, .eof, .eof, .eof] = .ok s ∧ s.frames = [] ∧ s.out.count commandNf = 3) ∧
    Io.shell.failures [foo, foo, .eof, .eof, .eof] = 2 := by
  have hrun : ∀ {r : Except Stop Session}, (r.toOption.any fun s => s.frames = [] && s.out.count commandNf = 3) = true →
      ∃ s, r = .ok s ∧ s.frames = [] ∧ s.out.count commandNf = 3 := by
    intro r hr
    cases r with
    | error x => exact absurd hr nofun
    | ok s => exact ⟨s, rfl, by simpa [Except.toOption] using hr⟩
  exact ⟨hrun (by decide +kernel), by decide +kernel, hrun (by decide +kernel), by decide +kernel⟩

/-- The message of a shell whose output is in `f` gets there only. -/
example : ((run Io.shell.step .init [inner, foo, .eof, .eof, .eof]).toOption.any fun s =>
    s.frames = [] && s.out.count commandNf = 0) = true ∧ Io.shell.failures [inner, foo, .eof, .eof, .eof] = 1 := by
  decide +kernel

end Bash
end OsLabs
