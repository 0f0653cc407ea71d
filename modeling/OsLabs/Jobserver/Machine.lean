/-
# The processes of the jobserver

`main.c`. The processes are those that run `dfs`, the watchers, and the user's commands; all share the
semaphore, which is a pipe. A process has its place in the code with the variables that are in use there, its
directory, and the number of calls of `dfs` on its stack. An event is one step of one process: up to its
next system call that others can see. `fork` succeeds.

`unmatched` records the programs for which `acquire` has returned and `release` has not been called yet, `launched` those for which
`execl` has been called, and `finished` those whose command has ended. No process reads them.

Key definitions: `PC`, `Proc`, `step`, `Steps`.
-/
import OsLabs.Lib.Except
import OsLabs.Lib.Processes
import OsLabs.Lib.Run
import OsLabs.Jobserver.Tree

namespace OsLabs
namespace Jobserver

open Processes

/-- The bytes that a pipe takes. -/
abbrev CAPACITY : ℕ := 65536

/-- Where a process is, with what is left of the loop it is in. -/
inductive PC
  -- `main`, with so many bytes still to write in `sem_init`
  | semInit (left : ℕ)
  -- the start of `dfs`
  | dfs
  -- the loop over `subdirs`, with the `sub_pids` so far
  | subdirs (todo : List Subdir) (progs : List String) (subPids : List ℕ)
  -- the child, before its own `dfs`
  | chdir (sub : Subdir)
  -- the loop over `progs`, at `acquire`, with the `watch_pids` so far
  | acquire (todo : List String) (subPids watchPids : List ℕ)
  | fork (prog : String) (todo : List String) (subPids watchPids : List ℕ)
  -- the two loops of `waitpid`
  | wait (subPids watchPids : List ℕ)
  -- a watcher
  | watcher (prog : String)
  | waitChild (child : ℕ) (prog : String)
  | release (prog : String)
  -- its child
  | execl (prog : String)
  | command (prog : String)
  -- `waitpid(0, ..)`, in a child whose `execl` has failed
  | waitNone (prog : String)
  | exited

structure Proc where
  parent : ℕ
  path : Path
  cwd : Dir
  -- the calls of `dfs` that have not returned
  depth : ℕ
  pc : PC

namespace Proc

variable (p : Proc)

def goto (pc : PC) : Proc := { p with pc := pc }

/-- A child is a copy. -/
def forked (pid : ℕ) (pc : PC) : Proc := { p with parent := pid, pc := pc }

/-- `dfs` is called. -/
def call : Proc := { p with depth := p.depth + 1, pc := .dfs }

/-- `chdir`, which nobody checks, and `dfs`. -/
def chdir (sub : Subdir) : Proc :=
  if sub.enters then call { p with path := p.path ++ [sub.name], cwd := sub.dir } else p.call

def file (prog : String) : Path := p.path ++ [prog]

@[simp] theorem goto_pc (pc : PC) : (p.goto pc).pc = pc := rfl
@[simp] theorem goto_path (pc : PC) : (p.goto pc).path = p.path := rfl
@[simp] theorem goto_cwd (pc : PC) : (p.goto pc).cwd = p.cwd := rfl
@[simp] theorem goto_depth (pc : PC) : (p.goto pc).depth = p.depth := rfl
@[simp] theorem goto_parent (pc : PC) : (p.goto pc).parent = p.parent := rfl

@[simp] theorem forked_pc (pid : ℕ) (pc : PC) : (p.forked pid pc).pc = pc := rfl
@[simp] theorem forked_path (pid : ℕ) (pc : PC) : (p.forked pid pc).path = p.path := rfl
@[simp] theorem forked_cwd (pid : ℕ) (pc : PC) : (p.forked pid pc).cwd = p.cwd := rfl
@[simp] theorem forked_depth (pid : ℕ) (pc : PC) : (p.forked pid pc).depth = p.depth := rfl
@[simp] theorem forked_parent (pid : ℕ) (pc : PC) : (p.forked pid pc).parent = pid := rfl

@[simp] theorem call_pc : p.call.pc = .dfs := rfl
@[simp] theorem call_path : p.call.path = p.path := rfl
@[simp] theorem call_cwd : p.call.cwd = p.cwd := rfl
@[simp] theorem call_depth : p.call.depth = p.depth + 1 := rfl
@[simp] theorem call_parent : p.call.parent = p.parent := rfl

@[simp] theorem chdir_pc (sub : Subdir) : (p.chdir sub).pc = .dfs := by
  unfold chdir
  split_ifs <;> rfl

@[simp] theorem chdir_depth (sub : Subdir) : (p.chdir sub).depth = p.depth + 1 := by
  unfold chdir
  split_ifs <;> rfl

@[simp] theorem chdir_parent (sub : Subdir) : (p.chdir sub).parent = p.parent := by
  unfold chdir
  split_ifs <;> rfl

theorem chdir_enters {sub : Subdir} (h : sub.enters = true) :
    p.chdir sub = call { p with path := p.path ++ [sub.name], cwd := sub.dir } := if_pos h

theorem chdir_refused {sub : Subdir} (h : sub.enters = false) : p.chdir sub = p.call := if_neg (by simp [h])

end Proc

structure State where
  procs : List Proc
  -- in the pipe
  bytes : ℕ
  unmatched : Multiset Path
  launched : Multiset Path
  finished : Multiset Path

/-- A step of process `pid`; if it calls `execl`, whether that succeeds. -/
structure Event where
  pid : ℕ
  ok : Bool

inductive Fault
  -- there is no such process, or it has ended
  | none
  -- the process is blocked in its system call
  | blocked
  deriving DecidableEq, Repr

section

variable (s : State)

/-- `waitpid` returns. -/
def State.exited (c : ℕ) : Bool :=
  match s.procs[c]? with
  | some ⟨_, _, _, _, .exited⟩ => true
  | _ => false

/-- Process `i` is now `p`. -/
def State.goes (i : ℕ) (p : Proc) : State := { s with procs := next s.procs i p none }

def State.forks (i : ℕ) (p child : Proc) : State := { s with procs := next s.procs i p (some child) }

/-- The write to the pipe, which blocks when the pipe is full. -/
def State.write (i : ℕ) (p : Proc) : Except Fault State :=
  if s.bytes < CAPACITY then .ok { s.goes i p with bytes := s.bytes + 1 } else .error .blocked

/-- The read, which blocks when it is empty. -/
def State.read (i : ℕ) (p : Proc) : Except Fault State :=
  if 0 < s.bytes then .ok { s.goes i p with bytes := s.bytes - 1 } else .error .blocked

/-- The step of process `i`, which is `p`. -/
def stepOf (i : ℕ) (p : Proc) (ok : Bool) : Except Fault State :=
  let pid := s.procs.length
  match p.pc with
  | .semInit 0 => .ok (s.goes i p.call)
  | .semInit (left + 1) => s.write i (p.goto (.semInit left))
  | .dfs =>
    if p.cwd.opens then .ok (s.goes i (p.goto (.subdirs p.cwd.subdirs p.cwd.progs [])))
    -- `readdir(NULL)`
    else .ok (s.goes i (p.goto .exited))
  | .subdirs (sub :: todo) progs subPids =>
    .ok (s.forks i (p.goto (.subdirs todo progs (subPids ++ [pid]))) (p.forked i (.chdir sub)))
  | .subdirs [] progs subPids => .ok (s.goes i (p.goto (.acquire progs subPids [])))
  | .chdir sub => .ok (s.goes i (p.chdir sub))
  | .acquire (prog :: todo) subPids watchPids => do
    let s ← s.read i (p.goto (.fork prog todo subPids watchPids))
    return { s with unmatched := p.file prog ::ₘ s.unmatched }
  | .acquire [] subPids watchPids => .ok (s.goes i (p.goto (.wait subPids watchPids)))
  | .fork prog todo subPids watchPids =>
    .ok (s.forks i (p.goto (.acquire todo subPids (watchPids ++ [pid]))) (p.forked i (.watcher prog)))
  | .wait (c :: subPids) watchPids =>
    if s.exited c then .ok (s.goes i (p.goto (.wait subPids watchPids))) else .error .blocked
  | .wait [] (c :: watchPids) =>
    if s.exited c then .ok (s.goes i (p.goto (.wait [] watchPids))) else .error .blocked
  | .wait [] [] => .ok (s.goes i (p.goto .exited))
  | .watcher prog => .ok (s.forks i (p.goto (.waitChild pid prog)) (p.forked i (.execl prog)))
  | .waitChild c prog => if s.exited c then .ok (s.goes i (p.goto (.release prog))) else .error .blocked
  | .release prog => do
    let s ← s.write i (p.goto .exited)
    return { s with unmatched := s.unmatched.erase (p.file prog) }
  | .execl prog =>
    -- the child of a watcher goes on behind a failed `execl`
    .ok { s.goes i (p.goto (if ok then .command prog else .waitNone prog)) with
      launched := p.file prog ::ₘ s.launched }
  | .command prog => .ok { s.goes i (p.goto .exited) with finished := p.file prog ::ₘ s.finished }
  | .waitNone prog => .ok (s.goes i (p.goto (.release prog)))
  | .exited => .error .none

def step (e : Event) : Except Fault State :=
  match s.procs[e.pid]? with
  | none => .error .none
  | some p => stepOf s e.pid p e.ok

end

/-- `main` with the argument `k`, in the directory `root`. -/
def init (root : Dir) (k : ℕ) : State := ⟨[⟨0, [], root, 0, .semInit k⟩], 0, 0, 0, 0⟩

/-! ### All that a step can do -/

/-- Steps that change only the process itself. -/
inductive Quiet (s : State) (p : Proc) : Proc → Prop
  | dfs (h : p.pc = .semInit 0) : Quiet s p p.call
  | chdir {sub : Subdir} (h : p.pc = .chdir sub) : Quiet s p (p.chdir sub)
  | scan (h : p.pc = .dfs) (ho : p.cwd.opens = true) : Quiet s p (p.goto (.subdirs p.cwd.subdirs p.cwd.progs []))
  | crash (h : p.pc = .dfs) (ho : p.cwd.opens = false) : Quiet s p (p.goto .exited)
  | forked {progs : List String} {subPids : List ℕ} (h : p.pc = .subdirs [] progs subPids) :
      Quiet s p (p.goto (.acquire progs subPids []))
  | started {subPids watchPids : List ℕ} (h : p.pc = .acquire [] subPids watchPids) :
      Quiet s p (p.goto (.wait subPids watchPids))
  | waitSub {c : ℕ} {subPids watchPids : List ℕ} (h : p.pc = .wait (c :: subPids) watchPids) (hc : s.exited c = true) :
      Quiet s p (p.goto (.wait subPids watchPids))
  | waitWatch {c : ℕ} {watchPids : List ℕ} (h : p.pc = .wait [] (c :: watchPids)) (hc : s.exited c = true) :
      Quiet s p (p.goto (.wait [] watchPids))
  | done (h : p.pc = .wait [] []) : Quiet s p (p.goto .exited)
  | waitChild {c : ℕ} {prog : String} (h : p.pc = .waitChild c prog) (hc : s.exited c = true) :
      Quiet s p (p.goto (.release prog))
  | waitNone {prog : String} (h : p.pc = .waitNone prog) : Quiet s p (p.goto (.release prog))

/-- Steps that fork, with the child. -/
inductive Forks (s : State) (i : ℕ) (p : Proc) : Proc → Proc → Prop
  | subdir {sub : Subdir} {todo : List Subdir} {progs : List String} {subPids : List ℕ}
      (h : p.pc = .subdirs (sub :: todo) progs subPids) :
      Forks s i p (p.goto (.subdirs todo progs (subPids ++ [s.procs.length]))) (p.forked i (.chdir sub))
  | watcher {prog : String} {todo : List String} {subPids watchPids : List ℕ}
      (h : p.pc = .fork prog todo subPids watchPids) :
      Forks s i p (p.goto (.acquire todo subPids (watchPids ++ [s.procs.length]))) (p.forked i (.watcher prog))
  | command {prog : String} (h : p.pc = .watcher prog) :
      Forks s i p (p.goto (.waitChild s.procs.length prog)) (p.forked i (.execl prog))

/-- What a step of process `i`, which is `p`, leads to. -/
inductive Steps (s : State) (i : ℕ) (p : Proc) (ok : Bool) : State → Prop
  | quiet {p' : Proc} (h : Quiet s p p') : Steps s i p ok (s.goes i p')
  | forks {p' child : Proc} (h : Forks s i p p' child) : Steps s i p ok (s.forks i p' child)
  | post {left : ℕ} (h : p.pc = .semInit (left + 1)) (hfull : s.bytes < CAPACITY) :
      Steps s i p ok { s.goes i (p.goto (.semInit left)) with bytes := s.bytes + 1 }
  | acquire {prog : String} {todo : List String} {subPids watchPids : List ℕ}
      (h : p.pc = .acquire (prog :: todo) subPids watchPids) (hbytes : 0 < s.bytes) :
      Steps s i p ok { s.goes i (p.goto (.fork prog todo subPids watchPids)) with
        bytes := s.bytes - 1, unmatched := p.file prog ::ₘ s.unmatched }
  | release {prog : String} (h : p.pc = .release prog) (hfull : s.bytes < CAPACITY) :
      Steps s i p ok { s.goes i (p.goto .exited) with
        bytes := s.bytes + 1, unmatched := s.unmatched.erase (p.file prog) }
  | launch {prog : String} (h : p.pc = .execl prog) (hok : ok = true) :
      Steps s i p ok { s.goes i (p.goto (.command prog)) with launched := p.file prog ::ₘ s.launched }
  | fail {prog : String} (h : p.pc = .execl prog) (hok : ok = false) :
      Steps s i p ok { s.goes i (p.goto (.waitNone prog)) with launched := p.file prog ::ₘ s.launched }
  | finish {prog : String} (h : p.pc = .command prog) :
      Steps s i p ok { s.goes i (p.goto .exited) with finished := p.file prog ::ₘ s.finished }

section

variable {s s' : State} {i c : ℕ} {p : Proc} {ok : Bool}

theorem write_ok {p' : Proc} (h : s.write i p' = .ok s') :
    s.bytes < CAPACITY ∧ s' = { s.goes i p' with bytes := s.bytes + 1 } := by
  unfold State.write at h
  split_ifs at h with hfull
  cases h
  exact ⟨hfull, rfl⟩

theorem read_ok {p' : Proc} (h : s.read i p' = .ok s') :
    0 < s.bytes ∧ s' = { s.goes i p' with bytes := s.bytes - 1 } := by
  unfold State.read at h
  split_ifs at h with hbytes
  cases h
  exact ⟨hbytes, rfl⟩

theorem stepOf_steps (h : stepOf s i p ok = .ok s') : Steps s i p ok s' := by
  unfold stepOf at h
  split at h
  case h_1 hpc => cases h; exact .quiet (.dfs hpc)
  case h_2 hpc =>
    obtain ⟨hfull, rfl⟩ := write_ok h
    exact .post hpc hfull
  case h_3 hpc =>
    split_ifs at h with ho <;> cases h
    · exact .quiet (.scan hpc ho)
    · exact .quiet (.crash hpc (by simpa using ho))
  case h_4 hpc => cases h; exact .forks (.subdir hpc)
  case h_5 hpc => cases h; exact .quiet (.forked hpc)
  case h_6 hpc => cases h; exact .quiet (.chdir hpc)
  case h_7 hpc =>
    obtain ⟨t, ht, h⟩ := of_bind_ok h
    obtain ⟨hbytes, rfl⟩ := read_ok ht
    cases h
    exact .acquire hpc hbytes
  case h_8 hpc => cases h; exact .quiet (.started hpc)
  case h_9 hpc => cases h; exact .forks (.watcher hpc)
  case h_10 hpc =>
    split_ifs at h with hc
    cases h
    exact .quiet (.waitSub hpc hc)
  case h_11 hpc =>
    split_ifs at h with hc
    cases h
    exact .quiet (.waitWatch hpc hc)
  case h_12 hpc => cases h; exact .quiet (.done hpc)
  case h_13 hpc => cases h; exact .forks (.command hpc)
  case h_14 hpc =>
    split_ifs at h with hc
    cases h
    exact .quiet (.waitChild hpc hc)
  case h_15 hpc =>
    obtain ⟨t, ht, h⟩ := of_bind_ok h
    obtain ⟨hfull, rfl⟩ := write_ok ht
    cases h
    exact .release hpc hfull
  case h_16 hpc =>
    cases h
    cases hok : ok with
    | true => exact .launch hpc rfl
    | false => exact .fail hpc rfl
  case h_17 hpc => cases h; exact .finish hpc
  case h_18 hpc => cases h; exact .quiet (.waitNone hpc)
  case h_19 hpc => cases h

theorem step_steps {e : Event} (h : step s e = .ok s') : ∃ p, s.procs[e.pid]? = some p ∧ Steps s e.pid p e.ok s' := by
  unfold step at h
  split at h
  · cases h
  · next p hp => exact ⟨p, hp, stepOf_steps h⟩

theorem step_eq {e : Event} (hp : s.procs[e.pid]? = some p) : step s e = stepOf s e.pid p e.ok := by
  unfold step
  rw [hp]

theorem exited_iff : s.exited c = true ↔ ∃ p, s.procs[c]? = some p ∧ p.pc = .exited := by
  unfold State.exited
  split
  · next h => exact iff_of_true rfl ⟨_, h, rfl⟩
  · next hn =>
    refine iff_of_false Bool.false_ne_true ?_
    rintro ⟨⟨_, _, _, _, pc⟩, hp, hpc⟩
    subst hpc
    exact hn _ _ _ _ hp

end

end Jobserver
end OsLabs
