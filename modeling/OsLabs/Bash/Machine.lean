/-
# The processes of the pipeline shell

`pipe/main.c` and the launch loop of `Exec`, for a whole tree of processes: the shell, the children it
forks, the programs that they become, and the children that go back to `main`'s loop because an
`open` or `execvp` has failed. Every process has its own descriptor table. A step is what a process
does between two points where others can see it: in the launch loop of a shell one step for
`pipe`, `fork` and `close` each, and in a child one step up to `execvp`.

The environment chooses which process goes on, the lines, which files can be opened and which programs
can be executed, and what those programs do with their descriptors. Events that it cannot send are
`refused`.

No code reads `pipes` and `entry` of a `Call`, or `owner`: they say which pipe was made for which command,
what the table was before the call, and which process was forked for the command of a pipe.

Key definitions: `Proc`, `PC`, `Event`, `step`.
-/
import OsLabs.Bash.Argv
import OsLabs.Lib.Fds
import OsLabs.Lib.Run

namespace OsLabs
namespace Bash
namespace Pipe

open Fds

abbrev Pid := ℕ

/-- What a descriptor refers to. -/
inductive File
  /-- What the shell was started with. -/
  | inherited (k : ℕ)
  /-- The target of a redirect. -/
  | opened (mode : Mode) (path : Text)
  /-- The ends of the `k`-th pipe. -/
  | readEnd (k : ℕ)
  | writeEnd (k : ℕ)
  /-- What a program has opened. -/
  | foreign (k : ℕ)
  deriving DecidableEq, Repr

/-- -1 is `none`. -/
structure FdManager where
  usedStd : ℕ
  savedStd : Option ℕ
  openedFd : Option ℕ
  deriving DecidableEq, Repr

/-- The variables of a call of `Exec` in its launch loop. -/
structure Call where
  commands : List (List Token)
  cnt : ℕ
  i : ℕ
  inFd : ℕ
  pipefd : ℕ × ℕ
  pipes : List ℕ
  entry : Table File
  deriving DecidableEq, Repr

inductive PC
  /-- In `main`'s loop, at `GetCmd`. -/
  | getCmd
  /-- At the head of the launch loop. -/
  | launch (c : Call)
  | fork (c : Call)
  /-- The parent behind the `fork`. -/
  | close (c : Call)
  | wait (c : Call)
  /-- The child behind the `fork`. -/
  | child (c : Call)
  | exec (c : Call) (inManager outManager : FdManager) (argv : Argv)
  /-- Another program: `execvp` has succeeded. -/
  | program
  | exited
  deriving DecidableEq, Repr

structure Proc where
  parent : Option Pid
  fds : Table File
  pc : PC
  deriving DecidableEq, Repr

structure State where
  procs : List Proc
  -- how many pipes the shells have made
  pipes : ℕ
  owner : ℕ → Option Pid

/-- What a program does with its descriptors. -/
inductive Act
  | close (fd : ℕ)
  | dup2 (old new : ℕ)
  | obtain (k : ℕ)
  | fork
  | exit
  deriving DecidableEq, Repr

inductive Event
  /-- `GetCmd` returns a line, or 0. -/
  | line (p : Pid) (text : List Char)
  | eof (p : Pid)
  /-- A shell goes on in `Exec`. -/
  | go (p : Pid)
  /-- A child goes on to `execvp`; `opens` says which files can be opened. -/
  | child (p : Pid) (opens : Mode → Text → Bool)
  | exec (p : Pid) (ok : Bool)
  | act (p : Pid) (a : Act)

/-! ### Redirects -/

/-- The descriptors of a child, one of its managers, and `io_error`. -/
structure Redirect where
  fds : Table File
  manager : FdManager
  ioError : Bool
  deriving DecidableEq, Repr

/-- `fd_manager->saved_std = dup(used_std); dup2(opened_fd, used_std)`. -/
def dupStd (fds : Table File) (m : FdManager) (openedFd : ℕ) : Table File × FdManager :=
  match Fds.dup fds m.usedStd with
  | some (fds, saved) => (dup2 fds openedFd m.usedStd, { m with savedStd := some saved })
  | none => (dup2 fds openedFd m.usedStd, { m with savedStd := none })

def dupWithOpen (opens : Mode → Text → Bool) (r : Redirect) (mode : Mode) (path : Text) : Redirect :=
  if opens mode path then
    let (fds, fd) := alloc r.fds (.opened mode path)
    let (fds, m) := dupStd fds { r.manager with openedFd := some fd } fd
    { r with fds := fds, manager := m }
  else { r with manager := { r.manager with openedFd := none }, ioError := true }

/-- `Dup`. -/
def dup (fds : Table File) (m : FdManager) : Table File × FdManager :=
  match m.openedFd with
  | some fd => dupStd fds m fd
  | none => (fds, m)

def resetStdio (fds : Table File) (m : FdManager) : Table File :=
  let fds :=
    match m.savedStd with
    | some saved => Fds.close (dup2 fds saved m.usedStd) saved
    | none => fds
  match m.openedFd with
  | some fd => Fds.close fds fd
  | none => fds

/-- `in_manager` behind its part of the child's code. -/
def redirectIn (c : Call) (command : List Token) (opens : Mode → Text → Bool) (fds : Table File) :
    Except Fault Redirect :=
  let m : FdManager := ⟨0, none, some c.inFd⟩
  if c.i = 0 then validateIOAndOpenFile (dupWithOpen opens) true false command ⟨fds, m, false⟩
  else
    let (fds, m) := dup fds m
    .ok ⟨fds, m, false⟩

/-- `out_manager` likewise. -/
def redirectOut (c : Call) (command : List Token) (opens : Mode → Text → Bool) (fds : Table File) :
    Except Fault Redirect :=
  let m : FdManager := ⟨1, none, some c.pipefd.2⟩
  if c.i = c.cnt - 1 then validateIOAndOpenFile (dupWithOpen opens) false true command ⟨fds, m, false⟩
  else
    let (fds, m) := dup fds m
    .ok ⟨fds, m, false⟩

/-- The child's code up to `execvp`: its new descriptors, and where it goes on. -/
def redirect (c : Call) (opens : Mode → Text → Bool) (fds : Table File) : Except Fault (Table File × PC) := do
  match c.commands[c.i]? with
  | none => .error .bounds
  | some command =>
    let r ← redirectIn c command opens fds
    let out : FdManager := ⟨1, none, some c.pipefd.2⟩
    if r.ioError then return (resetStdio (resetStdio r.fds r.manager) out, .getCmd)
    let w ← redirectOut c command opens r.fds
    if w.ioError then return (resetStdio (resetStdio w.fds r.manager) w.manager, .getCmd)
    let argv ← getArgv command
    return (w.fds, .exec c r.manager w.manager argv)

/-! ### Steps -/

def State.put (s : State) (p : Pid) (proc : Proc) : State := { s with procs := s.procs.set p proc }

/-- A new process, with the next pid. -/
def State.add (s : State) (proc : Proc) : State := { s with procs := s.procs ++ [proc] }

/-- The shell waits for every child that it has forked. -/
def State.hasChild (s : State) (p : Pid) : Bool := s.procs.any fun q => q.parent = some p && q.pc ≠ .exited

/-- A shell's next step in `Exec`. -/
def go (s : State) (p : Pid) (proc : Proc) : Except Stop State :=
  match proc.pc with
  | .launch c =>
    if c.i < c.cnt then
      let (fds, r) := alloc proc.fds (.readEnd s.pipes)
      let (fds, w) := alloc fds (.writeEnd s.pipes)
      .ok { s.put p { proc with fds := fds, pc := .fork { c with pipefd := (r, w), pipes := c.pipes ++ [s.pipes] } }
        with pipes := s.pipes + 1 }
    else .ok (s.put p { proc with pc := .wait c })
  | .fork c =>
    let s' := (s.put p { proc with pc := .close c }).add { proc with parent := some p, pc := .child c }
    .ok { s' with owner := fun k => if c.pipes[c.i]? = some k then some s.procs.length else s.owner k }
  | .close c =>
    .ok (s.put p { proc with
      fds := Fds.close proc.fds c.pipefd.2
      pc := .launch { c with i := c.i + 1, inFd := c.pipefd.1 } })
  | .wait _ => if s.hasChild p then .error .refused else .ok (s.put p { proc with pc := .getCmd })
  | _ => .error .refused

/-- What another program does. -/
def act (s : State) (p : Pid) (proc : Proc) : Act → State
  | .close fd => s.put p { proc with fds := Fds.close proc.fds fd }
  | .dup2 old new => s.put p { proc with fds := Fds.dup2 proc.fds old new }
  | .obtain k => s.put p { proc with fds := (alloc proc.fds (.foreign k)).1 }
  | .fork => s.add { proc with parent := some p }
  | .exit => s.put p { proc with fds := [], pc := .exited }

def stepProc (s : State) (p : Pid) (proc : Proc) : Event → Except Stop State
  | .line _ text =>
    if proc.pc = .getCmd ∧ (get proc.fds 0).isSome then
      match exec (tokenizerInit text) with
      | .error f => .error (.fault f)
      | .ok (.launch commands cnt) => .ok (s.put p { proc with pc := .launch ⟨commands, cnt, 0, 0, (0, 0), [], proc.fds⟩ })
      | .ok _ => .ok s
    else .error .refused
  | .eof _ => if proc.pc = .getCmd then .ok (s.put p { proc with fds := [], pc := .exited }) else .error .refused
  | .go _ => go s p proc
  | .child _ opens =>
    match proc.pc with
    | .child c =>
      match redirect c opens proc.fds with
      | .error f => .error (.fault f)
      | .ok (fds, pc) => .ok (s.put p { proc with fds := fds, pc := pc })
    | _ => .error .refused
  | .exec _ ok =>
    match proc.pc with
    | .exec _ inManager outManager _ =>
      if ok then .ok (s.put p { proc with pc := .program })
      else .ok (s.put p { proc with fds := resetStdio (resetStdio proc.fds inManager) outManager, pc := .getCmd })
    | _ => .error .refused
  | .act _ a => if proc.pc = .program then .ok (act s p proc a) else .error .refused

/-- The process that an event is for. -/
def Event.pid : Event → Pid
  | .line p _ | .eof p | .go p | .child p _ | .exec p _ | .act p _ => p

def step (s : State) (e : Event) : Except Stop State :=
  match s.procs[e.pid]? with
  | none => .error .refused
  | some proc => stepProc s e.pid proc e

/-- The shell is started with 0, 1 and 2 open, and other descriptors that it does not use. -/
structure Started (fds : Table File) : Prop where
  stdin : get fds 0 = some (.inherited 0)
  stdout : get fds 1 = some (.inherited 1)
  stderr : get fds 2 = some (.inherited 2)
  inherited : ∀ f, Holds fds f → ∃ k, f = .inherited k

def init (fds : Table File) : State := ⟨[⟨none, fds, .getCmd⟩], 0, fun _ => none⟩

/-! ### Refused lines -/

/-- **A line is refused exactly if it is malformed.** Then no process and no descriptor changes; otherwise the launch
loop gets the first tokens of the runs. -/
theorem exec_verdict (text : List Char) (h : (tokenizerInit text).head ≠ []) :
    (exec (tokenizerInit text) = .ok .syntaxError ↔ Malformed (runs (tokenizerInit text).head)) ∧
    (Malformed (runs (tokenizerInit text).head) → ∀ (s : State) (p : Pid) (proc : Proc), s.procs[p]? = some proc →
      proc.pc = .getCmd → (get proc.fds 0).isSome → step s (.line p text) = .ok s) ∧
    (¬ Malformed (runs (tokenizerInit text).head) →
      ∃ commands, exec (tokenizerInit text) = .ok (.launch commands (runs (tokenizerInit text).head).length) ∧
        commands.map runOf = runs (tokenizerInit text).head ∧ ∀ command ∈ commands, command <:+ (tokenizerInit text).head) := by
  obtain ⟨out, hout, hverdict⟩ := exec_eq (tokenizerInit text) rfl
  have hiff := hverdict.syntaxError h
  refine ⟨?_, fun hmal s p proc hp hpc hopen => ?_, fun hmal => ?_⟩
  · rw [hout, ← hiff]
    exact ⟨Except.ok.inj, congrArg Except.ok⟩
  · obtain rfl := hiff.mpr hmal
    have hready : proc.pc = .getCmd ∧ (get proc.fds 0).isSome := ⟨hpc, hopen⟩
    simp only [step, Event.pid, hp, stepProc, if_pos hready, hout]
  · refine ⟨starts (tokenizerInit text).head, ?_, (splitOnP_starts _).symm, fun command hc => ?_⟩
    · rw [hout, hverdict.launch h hmal]
    · rcases List.mem_cons.mp hc with rfl | hc
      · exact List.suffix_refl _
      · exact suffix_of_afterPipes _ command hc

/-- `<` has no target, and is not in the first command. -/
theorem exec_verdict_target : Malformed (runs (tokenizerInit "cat | wc <\n".toList).head) ∧
    exec (tokenizerInit "cat | wc <\n".toList) = .ok .syntaxError := by
  have h := exec_verdict "cat | wc <\n".toList (by decide)
  have hout : exec (tokenizerInit "cat | wc <\n".toList) = .ok .syntaxError := by decide +kernel
  exact ⟨h.1.mp hout, hout⟩

end Pipe
end Bash
end OsLabs
