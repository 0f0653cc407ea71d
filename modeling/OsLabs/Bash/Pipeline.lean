/-
# The pipes of a pipeline

A pipe is settled when it has its owner and no shell holds its write end for somebody else
any more. It stays so, and all that hold its write end have it from the owner:
`pipeline_wired`. Of the read ends the shell closes none, so that it keeps one descriptor for each command
that it has ever launched: `read_ends_leak`.

Key definitions: `Settled`, `Piped`, `OneReader`, `Restored`.
-/
import OsLabs.Bash.Descriptors

namespace OsLabs
namespace Bash
namespace Pipe

open Fds Run

/-! ### Write ends -/

/-- The pipe `k` has been given to the process `a`. -/
structure Settled (k : ℕ) (a : Pid) (s : State) : Prop where
  made : k < s.pipes
  owner : s.owner k = some a
  given : ∀ (p : Pid) (proc : Proc), s.procs[p]? = some proc → ¬ proc.pc.Makes k

section

variable {s s' : State} {k : ℕ} {a p : Pid} {proc : Proc} {c : Call}

theorem Inv.pipes_length (h : Inv s) (hp : s.procs[p]? = some proc) (hpc : proc.pc = .launch c) : c.pipes.length = c.i := by
  have hlocal := h.locals p proc hp
  rw [hpc] at hlocal
  exact hlocal.1.pipes

theorem Stepped.settled (h : Stepped s s') (hinv : Inv s) (hs : Settled k a s) : Settled k a s' := by
  cases h with
  | same => exact hs
  | moves hp hm =>
    refine ⟨hs.made, hs.owner, fun q proc' hq hk => ?_⟩
    rcases put_cases hq with ⟨rfl, rfl⟩ | ⟨-, hq⟩
    · exact hs.given q _ hp (hm.makes k hk)
    · exact hs.given q proc' hq hk
  | copied hp hpc =>
    refine ⟨hs.made, hs.owner, fun q proc' hq hk => ?_⟩
    rcases add_cases hq with ⟨rfl, rfl⟩ | hq
    · rw [hpc] at hk
      exact hk
    · exact hs.given q proc' hq hk
  | @piped p proc c hp hpc hlt =>
    refine ⟨Nat.lt_succ_of_lt hs.made, hs.owner, fun q proc' hq hk => ?_⟩
    rcases put_cases hq with ⟨rfl, rfl⟩ | ⟨-, hq⟩
    · have hk : (c.pipes ++ [s.pipes])[c.i]? = some k := hk
      rw [← hinv.pipes_length hp hpc, List.getElem?_append_right le_rfl, Nat.sub_self] at hk
      obtain rfl := Option.some.inj hk
      exact lt_irrefl _ hs.made
    · exact hs.given q proc' hq hk
  | @forked p proc c hp hpc =>
    have hne : ¬ c.pipes[c.i]? = some k := fun hn => hs.given p proc hp (by rw [hpc]; exact hn)
    refine ⟨hs.made, (if_neg hne).trans hs.owner, fun q proc' hq hk => ?_⟩
    rcases add_cases hq with ⟨rfl, rfl⟩ | hq
    · exact hk
    · rcases put_cases hq with ⟨rfl, rfl⟩ | ⟨-, hq⟩
      · exact hne hk
      · exact hs.given q proc' hq hk

/-- The owner of a settled pipe decides who can write to it. -/
theorem Settled.descends (hs : Settled k a s) (h : Inv s) (hp : s.procs[p]? = some proc)
    (hk : Holds proc.fds (.writeEnd k)) : Descends s a p := by
  rcases h.owned p proc k hp hk with ⟨b, hb, hd⟩ | hmake
  · obtain rfl : a = b := Option.some.inj (hs.owner.symm.trans hb)
    exact hd
  · exact absurd hmake (hs.given p proc hp)

theorem Settled.run (hs : Settled k a s) (h : Inv s) (es : List Event) :
    Sat (fun s' => Settled k a s' ∧ Inv s') (· = .refused) (run step s es) := by
  have hstep : ∀ s e, Settled k a s ∧ Inv s → True → Sat (fun s' => Settled k a s' ∧ Inv s') (· = .refused) (step s e) :=
    fun s e hs _ => (step_cases hs.2 e).mono (fun _ hstepped => ⟨hstepped.settled hs.2 hs.1, hstepped.inv hs.2⟩) fun _ => id
  exact run_sat hstep es ⟨hs, h⟩ (along_true es s)

/-- Behind its launch loop a shell has given all its pipes to its children. -/
theorem settled_of_wait (h : Inv s) (hp : s.procs[p]? = some proc) (hpc : proc.pc = .wait c) (hk : k ∈ c.pipes) :
    ∃ a child, s.procs[a]? = some child ∧ child.parent = some p ∧ Settled k a s := by
  have hcall : proc.pc.call = some c := by rw [hpc]; rfl
  obtain ⟨a, child, howner, hchild, hparent⟩ := h.launched p proc c k hp hcall hk (by rw [hpc]; exact id)
  refine ⟨a, child, hchild, hparent, h.pipe_lt hp hcall hk, howner, fun q proc' hq hmake => ?_⟩
  obtain rfl := h.makers p q proc proc' c k hp hq hcall hk hmake
  obtain rfl : proc = proc' := Option.some.inj (hp.symm.trans hq)
  rw [hpc] at hmake
  exact hmake

end

/-- What the processes of a session may hold of the pipes. -/
structure Piped (s : State) : Prop where
  /-- A child calls `execvp` with the 0 and 1 of its command, and is the owner of its pipe. -/
  exec : ∀ (p : Pid) (proc : Proc) (c : Call) (inManager outManager : FdManager) (argv : Argv), s.procs[p]? = some proc →
    proc.pc = .exec c inManager outManager argv → Wired c proc.fds ∧ ∀ k, c.pipes[c.i]? = some k → s.owner k = some p
  /-- Behind the launch loop only the owner of a pipe and those it forks ever hold the write end. -/
  wait : ∀ (p : Pid) (proc : Proc) (c : Call) (k : ℕ), s.procs[p]? = some proc → proc.pc = .wait c → k ∈ c.pipes →
    ∃ a child, s.procs[a]? = some child ∧ child.parent = some p ∧ ∀ es, Sat (fun s' => s'.owner k = some a ∧
      ∀ (q : Pid) (proc' : Proc), s'.procs[q]? = some proc' → Holds proc'.fds (.writeEnd k) → Descends s' a q)
      (· = .refused) (run step s es)

/-- **Every command of a pipeline is wired to its neighbours.** Whatever opens and execs fail, in every
state of a session the children that call `execvp` have the right 0 and 1, and once all commands are launched a pipe's
write end is with the child that it was made for and with those that this child forks. -/
theorem pipeline_wired {fds : Table File} (h : Started fds) (es : List Event) :
    Sat Piped (· = .refused) (run step (init fds) es) := by
  refine (inv_of_run h es).mono (fun s hs => ⟨fun p proc c inM outM argv hp hpc => ?_, fun p proc c k hp hpc hk => ?_⟩)
    fun _ => id
  · have hlocal := hs.locals p proc hp
    rw [hpc] at hlocal
    exact ⟨hlocal.1, fun k hk => hs.runners p proc c k hp (by rw [hpc]; rfl) hk⟩
  · obtain ⟨a, child, hchild, hparent, hsettled⟩ := settled_of_wait hs hp hpc hk
    refine ⟨a, child, hchild, hparent, fun es' => (hsettled.run hs es').mono (fun s' hs' => ?_) fun _ => id⟩
    exact ⟨hs'.1.owner, fun q proc' hq hends => hs'.1.descends hs'.2 hq hends⟩

/-- The descriptors of a shell on a terminal. -/
def std : Table File := [some (.inherited 0), some (.inherited 1), some (.inherited 2)]

theorem started_std : Started std := by
  refine ⟨rfl, rfl, rfl, fun f hf => ?_⟩
  obtain ⟨fd, hfd⟩ := hf
  match fd, hfd with
  | 0, hfd => exact ⟨0, (Option.some.inj hfd).symm⟩
  | 1, hfd => exact ⟨1, (Option.some.inj hfd).symm⟩
  | 2, hfd => exact ⟨2, (Option.some.inj hfd).symm⟩

/-- A shell launches `a | b`, and both children come to `execvp`. -/
def launchTwo : List Event :=
  [.line 0 "a | b".toList, .go 0, .go 0, .go 0, .go 0, .go 0, .go 0, .go 0, .child 1 fun _ _ => true, .child 2 fun _ _ => true]

/-- What can be compared of a run's end. -/
def view (p : Pid) (k : ℕ) (r : Except Stop State) : Option (Proc × Option Pid) :=
  r.toOption.bind fun s => s.procs[p]?.map fun proc => (proc, s.owner k)

theorem view_some {p : Pid} {k : ℕ} {r : Except Stop State} {proc : Proc} {owner : Option Pid}
    (h : view p k r = some (proc, owner)) : ∃ s, r = .ok s ∧ s.procs[p]? = some proc ∧ s.owner k = owner := by
  cases r with
  | error x => exact absurd h nofun
  | ok s =>
    obtain ⟨proc', hp, heq⟩ := Option.map_eq_some_iff.mp h
    cases heq
    exact ⟨s, rfl, hp, rfl⟩

theorem pipeline_wired_two : ∃ s proc c, run step (init std) launchTwo = .ok s ∧ s.procs[2]? = some proc ∧
    proc.pc.runs = some c ∧ c.i = 1 ∧ get proc.fds 0 = some (.readEnd 0) ∧ Piped s := by
  have hview : (view 2 0 (run step (init std) launchTwo)).any fun x => get x.1.fds 0 = some (.readEnd 0) &&
      x.1.pc.runs.any fun c => c.i = 1 := by decide +kernel
  obtain ⟨⟨proc, owner⟩, heq, hproc⟩ := (Option.any_eq_true _ _).mp hview
  obtain ⟨s, hs, hp, -⟩ := view_some heq
  rw [Bool.and_eq_true, decide_eq_true_eq] at hproc
  obtain ⟨c, hc, hi⟩ := (Option.any_eq_true _ _).mp hproc.2
  have hpiped := pipeline_wired started_std launchTwo
  rw [hs] at hpiped
  exact ⟨s, proc, c, hs, hp, hc, of_decide_eq_true hi, hproc.1, hpiped⟩

/-! ### Read ends -/

/-- The read end of pipe `i` is with the child launched for the next command, and with nobody else. -/
def OneReader (s : State) (c : Call) (i : ℕ) : Prop :=
  ∀ (k : ℕ) (q : Pid) (proc : Proc), c.pipes[i]? = some k → s.procs[q]? = some proc → Holds proc.fds (.readEnd k) →
    ∃ l, c.pipes[i + 1]? = some l ∧ s.owner l = some q

/-- The descriptors are those from before the call. -/
def Restored (c : Call) (fds : Table File) : Prop := ∀ fd, get fds fd = get c.entry fd

section

variable {s : State} {p : Pid} {proc : Proc} {c : Call} {i : ℕ}

/-- A shell is not one of the children that it has launched. -/
theorem owner_ne (h : Inv s) (hp : s.procs[p]? = some proc) (hpc : proc.pc = .wait c) {k : ℕ} (hk : k ∈ c.pipes) :
    s.owner k ≠ some p := by
  intro howner
  obtain ⟨a, child, hchild, hparent, hsettled⟩ := settled_of_wait h hp hpc hk
  obtain rfl : a = p := Option.some.inj (hsettled.owner.symm.trans howner)
  exact absurd (h.older a a child hchild hparent) (lt_irrefl _)

theorem keeps_readers (h : Inv s) (hp : s.procs[p]? = some proc) (hpc : proc.pc = .wait c) (hi : i < c.cnt) :
    ∃ k, c.pipes[i]? = some k ∧ Holds proc.fds (.readEnd k) ∧ ¬ OneReader s c i := by
  have hlocal := h.locals p proc hp
  rw [hpc] at hlocal
  obtain ⟨hhead, hreads, hdone⟩ := hlocal
  have hlt : i < c.pipes.length := by rw [hhead.pipes, hdone]; exact hi
  have hheld := hreads.held c.pipes[i] (List.getElem_mem hlt)
  refine ⟨c.pipes[i], List.getElem?_eq_getElem hlt, hheld, fun hone => ?_⟩
  obtain ⟨l, hl, howner⟩ := hone _ p proc (List.getElem?_eq_getElem hlt) hp hheld
  exact owner_ne h hp hpc (List.mem_of_getElem? hl) howner

theorem not_restored (h : Inv s) (hp : s.procs[p]? = some proc) (hpc : proc.pc = .wait c) : ¬ Restored c proc.fds := by
  intro hsame
  have hlocal := h.locals p proc hp
  rw [hpc] at hlocal
  obtain ⟨hhead, hreads, hdone⟩ := hlocal
  have hlt : 0 < c.pipes.length := by rw [hhead.pipes, hdone]; exact hhead.pos
  have hmem := List.getElem_mem hlt
  obtain ⟨fd, hfd⟩ := hreads.held _ hmem
  exact hreads.new _ hmem ⟨fd, (hsame fd).symm.trans hfd⟩

end

/-- **The shell keeps a read end for every command.** Whatever the pipeline and the run, behind the launch loop the
shell holds the read ends of all its pipes, and when `Exec` returns it has descriptors that it did not have before. -/
theorem read_ends_leak {fds : Table File} (h : Started fds) (es : List Event) :
    Sat (fun s => ∀ (p : Pid) (proc : Proc) (c : Call), s.procs[p]? = some proc → proc.pc = .wait c →
      (∀ i < c.cnt, ∃ k, c.pipes[i]? = some k ∧ Holds proc.fds (.readEnd k) ∧ ¬ OneReader s c i) ∧
      ∀ s', step s (.go p) = .ok s' →
        ∃ proc' : Proc, s'.procs[p]? = some proc' ∧ proc'.pc = .getCmd ∧ ¬ Restored c proc'.fds)
      (· = .refused) (run step (init fds) es) := by
  refine (inv_of_run h es).mono (fun s hs p proc c hp hpc => ⟨fun i => keeps_readers hs hp hpc, fun s' hstep => ?_⟩)
    fun _ => id
  have hgo : step s (.go p) = if s.hasChild p then .error .refused else .ok (s.put p { proc with pc := .getCmd }) := by
    simp only [step, Event.pid, hp, stepProc, go, hpc]
    rfl
  rw [hgo] at hstep
  split_ifs at hstep
  cases hstep
  exact ⟨_, put_self hp, rfl, fun hsame => not_restored hs hp hpc hsame⟩

/-- What `view` says of the shell that has launched `a | b`. -/
theorem launchTwo_shell : ∃ s proc c, run step (init std) launchTwo = .ok s ∧ s.procs[0]? = some proc ∧
    proc.pc = .wait c ∧ c.pipes = [0, 1] ∧ c.entry = std ∧ get proc.fds 3 = some (.readEnd 0) ∧ s.owner 1 = some 2 := by
  have hview : (view 0 1 (run step (init std) launchTwo)).any fun x => get x.1.fds 3 = some (.readEnd 0) &&
      (x.2 = some 2 && match x.1.pc with
      | .wait c => c.pipes = [0, 1] && c.entry = std
      | _ => false) := by decide +kernel
  obtain ⟨⟨proc, owner⟩, heq, hproc⟩ := (Option.any_eq_true _ _).mp hview
  obtain ⟨s, hs, hp, howner⟩ := view_some heq
  simp only [Bool.and_eq_true, decide_eq_true_eq] at hproc
  obtain ⟨hread, rfl, hwait⟩ := hproc
  cases hpc : proc.pc with
  | wait c =>
    rw [hpc] at hwait
    simp only [Bool.and_eq_true, decide_eq_true_eq] at hwait
    exact ⟨s, proc, c, hs, hp, hpc, hwait.1, hwait.2, hread, howner⟩
  | _ =>
    rw [hpc] at hwait
    exact absurd hwait nofun

theorem read_ends_leak_two : ∃ s proc c k, run step (init std) launchTwo = .ok s ∧ s.procs[0]? = some proc ∧
    proc.pc = .wait c ∧ c.pipes[0]? = some k ∧ Holds proc.fds (.readEnd k) ∧ ¬ OneReader s c 0 := by
  obtain ⟨s, proc, c, hs, hp, hpc, hpipes, -⟩ := launchTwo_shell
  have hleak := read_ends_leak started_std launchTwo
  rw [hs] at hleak
  have hcnt : 0 < c.cnt := by
    have hinv := inv_of_run started_std launchTwo
    rw [hs] at hinv
    have hlocal := hinv.locals 0 proc hp
    rw [hpc] at hlocal
    exact hlocal.1.pos
  obtain ⟨k, hk, hheld, hone⟩ := (hleak 0 proc c hp hpc).1 0 hcnt
  exact ⟨s, proc, c, k, hs, hp, hpc, hk, hheld, hone⟩

/-- Behind the launch of `a | b` the shell holds the read end that belongs to `b`, in a descriptor that was free. -/
theorem shell_reads_too : ∃ s proc c, run step (init std) launchTwo = .ok s ∧ s.procs[0]? = some proc ∧
    proc.pc = .wait c ∧ ¬ OneReader s c 0 ∧ ¬ Restored c proc.fds := by
  obtain ⟨s, proc, c, hs, hp, hpc, hpipes, hentry, hread, howner⟩ := launchTwo_shell
  refine ⟨s, proc, c, hs, hp, hpc, fun hone => ?_, fun hsame => ?_⟩
  · obtain ⟨l, hl, hl'⟩ := hone 0 0 proc (by rw [hpipes]; rfl) hp ⟨3, hread⟩
    rw [hpipes] at hl
    cases hl
    rw [howner] at hl'
    exact absurd hl' (by decide)
  · have hfree := hsame 3
    rw [hread, hentry] at hfree
    exact absurd hfree nofun

end Pipe
end Bash
end OsLabs
