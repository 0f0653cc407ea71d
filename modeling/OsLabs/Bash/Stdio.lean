/-
# The standard input and output of a failed child

A child that cannot open a file or cannot execute its command resets its two managers and goes back to `main`'s
loop, where it is a shell itself. Its 1 is then what it was when `Exec` was called, in every stage. So is its 0,
unless it is the child of a first command without a `<`: the `in_manager` of that child starts with
0 as its opened descriptor, nothing moves it, and `ResetStdIO` closes it.

`Remembers` is the invariant: what a call has found at its entry, and what the managers of a child before `execvp` will
leave.

Key definitions: `Call.MovesStdin`, `StdioBack`, `FailsWith`.
Key theorem: `stdio_back`.
-/
import OsLabs.Bash.Pipeline

namespace OsLabs
namespace Bash
namespace Pipe

open Fds Run

/-- The child moves its 0: it is not the first, or the first command has a `<`. -/
def Call.MovesStdin (c : Call) : Prop :=
  c.i = 0 → ∃ command, c.commands[c.i]? = some command ∧ ∃ t ∈ runOf command, t.type = .infile

/-- 0 and 1 refer to what they did when `Exec` was called. -/
def StdioBack (c : Call) (fds : Table File) : Prop := get fds 0 = get c.entry 0 ∧ get fds 1 = get c.entry 1

/-- The event takes a child of the call `c` back to `main`'s loop, with these descriptors. -/
def FailsWith (s : State) (e : Event) (c : Call) (fds : Table File) : Prop :=
  ∃ proc s' proc', s.procs[e.pid]? = some proc ∧ proc.pc.runs = some c ∧ step s e = .ok s' ∧
    s'.procs[e.pid]? = some proc' ∧ proc'.pc = .getCmd ∧ proc'.fds = fds

/-! ### One child -/

section

variable {c : Call} {fds : Table File} {command : List Token} {r : Redirect}

theorem files_read_iff (h : Fit command) : files .read command ≠ [] ↔ ∃ t ∈ runOf command, t.type = .infile := by
  have hlen := (length_files h.1).1
  rw [Ne, ← List.length_eq_zero_iff, hlen, countIn, List.countP_eq_zero]
  push Not
  simp only [decide_eq_true_iff]

/-- The `in_manager` will close 0 if the child has not moved it. -/
theorem opened_stdin_iff (h : Stage c fds) (hcommand : c.commands[c.i]? = some command) (opens : Mode → Text → Bool)
    (hr : redirectIn c command opens fds = .ok r) :
    r.manager.openedFd = some 0 ↔ c.i = 0 ∧ files .read command = [] := by
  have hfit := h.fit command (List.mem_of_getElem? hcommand)
  unfold redirectIn at hr
  cases hi : c.i with
  | zero =>
    have hvalidate := validate_files hfit.1 (dupWithOpen opens) .read ⟨fds, ⟨0, none, some c.inFd⟩, false⟩
    rw [if_pos hi] at hr
    cases hr.symm.trans hvalidate
    rcases files_cases .read hfit with hnil | ⟨path, hpath⟩
    · rw [hnil, List.foldl_nil, h.first hi]
      exact iff_of_true rfl ⟨rfl, rfl⟩
    · rw [hpath, List.foldl_cons, List.foldl_nil]
      refine iff_of_false ?_ fun hn => absurd hn.2 (List.cons_ne_nil _ _)
      cases hok : opens .read path with
      | true => exact (moved_open 0 h.stdin hok rfl).openedFd
      | false =>
        rw [dupWithOpen_fail hok]
        exact fun hn => Option.some_ne_none 0 hn.symm
  | succ j =>
    have hlt : j < c.pipes.length := by rw [h.pipes]; omega
    have hin := h.next j c.pipes[j] hi (List.getElem?_eq_getElem hlt)
    have hne : c.inFd ≠ 0 := Ne.symm (ne_of_get h.stdin hin File.noConfusion)
    rw [if_neg (by omega)] at hr
    cases hr
    exact iff_of_false (moved_dup h.stdin hin hne).openedFd fun hn => absurd hn.1 (Nat.succ_ne_zero j)

theorem movesStdin_iff (h : Stage c fds) (hcommand : c.commands[c.i]? = some command) :
    c.MovesStdin ↔ ¬ (c.i = 0 ∧ files .read command = []) := by
  rw [not_and, ← Ne.eq_def, files_read_iff (h.fit command (List.mem_of_getElem? hcommand))]
  refine imp_congr_right fun _ => ⟨?_, fun hin => ⟨command, hcommand, hin⟩⟩
  rintro ⟨d, hd, hin⟩
  obtain rfl : command = d := Option.some.inj (hcommand.symm.trans hd)
  exact hin

/-- What both resets leave, if `Exec` was called with an open 0 and 1. -/
theorem stdioBack_iff {w : Redirect} (h : Stage c fds) (hcommand : c.commands[c.i]? = some command)
    (opens : Mode → Text → Bool) (hr : redirectIn c command opens fds = .ok r) (hafter : AfterIn c command fds r)
    (hafterw : AfterOut c command r.fds w) (h0 : get c.entry 0 = some (.inherited 0))
    (h1 : get c.entry 1 = some (.inherited 1)) :
    StdioBack c (resetStdio (resetStdio w.fds r.manager) w.manager) ↔ c.MovesStdin := by
  have hstdin := (resets_in hafter hafterw).get_reset_iff
  rw [StdioBack, stdin_of_resets hafter hafterw, stdout_of_resets hafter hafterw, h0, h1, and_iff_left rfl, hstdin,
    hafter.used, movesStdin_iff h hcommand, ← opened_stdin_iff h hcommand opens hr]

end

/-! ### Every child -/

/-- The call was made with the standard input and output. -/
def Call.Entered (c : Call) : Prop := get c.entry 0 = some (.inherited 0) ∧ get c.entry 1 = some (.inherited 1)

/-- What is known of a process's call, and of its managers. -/
def Remembers (fds : Table File) : PC → Prop
  | .launch c | .fork c | .close c | .wait c | .child c => c.Entered
  | .exec c inManager outManager _ =>
    c.Entered ∧ (StdioBack c (resetStdio (resetStdio fds inManager) outManager) ↔ c.MovesStdin)
  | _ => True

def AllRemember (s : State) : Prop := ∀ (p : Pid) (proc : Proc), s.procs[p]? = some proc → Remembers proc.fds proc.pc

section

variable {s : State} {p : Pid} {proc : Proc}

theorem AllRemember.put (h : AllRemember s) (new : Proc) (hnew : Remembers new.fds new.pc) : AllRemember (s.put p new) := by
  intro q proc' hq
  rcases put_cases hq with ⟨-, rfl⟩ | ⟨-, hq⟩
  · exact hnew
  · exact h q proc' hq

theorem AllRemember.add (h : AllRemember s) (new : Proc) (hnew : Remembers new.fds new.pc) : AllRemember (s.add new) := by
  intro q proc' hq
  rcases add_cases hq with ⟨-, rfl⟩ | hq
  · exact hnew
  · exact h q proc' hq

theorem remembers_go (h : AllRemember s) (hp : s.procs[p]? = some proc) : Sat AllRemember (· = .refused) (go s p proc) := by
  have hremembers := h p proc hp
  unfold go
  cases hpc : proc.pc with
  | launch c =>
    rw [hpc] at hremembers
    dsimp only
    split_ifs with hlt
    · exact h.put _ hremembers
    · exact h.put _ hremembers
  | fork c =>
    rw [hpc] at hremembers
    exact (h.put { proc with pc := .close c } hremembers).add _ hremembers
  | close c =>
    rw [hpc] at hremembers
    exact h.put _ hremembers
  | wait c =>
    dsimp only
    split_ifs
    · exact rfl
    · exact h.put _ trivial
  | _ => exact rfl

theorem remembers_line (hinv : Inv s) (h : AllRemember s) (hp : s.procs[p]? = some proc) (text : List Char) :
    Sat AllRemember (· = .refused) (stepProc s p proc (.line p text)) := by
  simp only [stepProc]
  split_ifs with hready
  · obtain ⟨hpc, hopen⟩ := hready
    have hhome := hinv.locals p proc hp
    rw [hpc] at hhome
    have hstdin := hhome.stdin.resolve_right (Option.isSome_iff_ne_none.mp hopen)
    obtain ⟨out, hout, -⟩ := exec_eq (tokenizerInit text) rfl
    rw [hout]
    cases out with
    | launch commands cnt => exact h.put { proc with pc := .launch _ } ⟨hstdin, hhome.stdout⟩
    | nothing => exact h
    | syntaxError => exact h
  · exact rfl

theorem remembers_child (hinv : Inv s) (h : AllRemember s) (hp : s.procs[p]? = some proc) (opens : Mode → Text → Bool) :
    Sat AllRemember (· = .refused) (stepProc s p proc (.child p opens)) := by
  have hremembers := h p proc hp
  have hlocal := hinv.locals p proc hp
  unfold stepProc
  cases hpc : proc.pc with
  | child c =>
    rw [hpc] at hremembers hlocal
    obtain ⟨command, r, w, hcommand, hr, hafter, hafterw, hcases⟩ := redirect_managers hlocal opens
    have hback := stdioBack_iff hlocal hcommand opens hr hafter hafterw hremembers.1 hremembers.2
    rcases hcases with ⟨-, hredirect⟩ | ⟨-, -, -, argv, hredirect⟩
    · simp only [hredirect]
      exact h.put _ trivial
    · simp only [hredirect]
      exact h.put _ ⟨hremembers, hback⟩
  | _ => exact rfl

theorem remembers_exec (h : AllRemember s) (ok : Bool) :
    Sat AllRemember (· = .refused) (stepProc s p proc (.exec p ok)) := by
  unfold stepProc
  cases proc.pc with
  | exec c inManager outManager argv =>
    cases ok with
    | true => exact h.put _ trivial
    | false => exact h.put _ trivial
  | _ => exact rfl

theorem remembers_step (hinv : Inv s) (h : AllRemember s) (e : Event) : Sat AllRemember (· = .refused) (step s e) := by
  unfold step
  cases hp : s.procs[e.pid]? with
  | none => exact rfl
  | some proc =>
    cases e with
    | line p text => exact remembers_line hinv h hp text
    | eof p =>
      simp only [stepProc]
      split_ifs
      · exact h.put _ trivial
      · exact rfl
    | go p => exact remembers_go h hp
    | child p opens => exact remembers_child hinv h hp opens
    | exec p ok => exact remembers_exec h ok
    | act p a =>
      simp only [stepProc]
      split_ifs with hpc
      · have hprogram : ∀ fds, Remembers fds proc.pc := fun fds => by rw [hpc]; trivial
        cases a with
        | close fd => exact h.put { proc with fds := Fds.close proc.fds fd } (hprogram _)
        | dup2 old new => exact h.put { proc with fds := Fds.dup2 proc.fds old new } (hprogram _)
        | obtain k => exact h.put { proc with fds := (alloc proc.fds (.foreign k)).1 } (hprogram _)
        | fork => exact h.add { proc with parent := some p } (hprogram _)
        | exit => exact h.put _ trivial
      · exact rfl

end

/-- What a failing child leaves, from what is remembered. -/
theorem back_of_fails {s : State} {e : Event} {c : Call} {fds : Table File} (hinv : Inv s) (h : AllRemember s)
    (hfails : FailsWith s e c fds) : StdioBack c fds ↔ c.MovesStdin := by
  obtain ⟨proc, s', proc', hp, hruns, hstep, hp', hpc', rfl⟩ := hfails
  have hremembers := h _ proc hp
  have hlocal := hinv.locals _ proc hp
  have hafter : ∀ {p : Pid} {new : Proc}, p = e.pid → s' = s.put p new → proc' = new := by
    rintro p new rfl rfl
    exact Option.some.inj (hp'.symm.trans (put_self hp))
  unfold step at hstep
  rw [hp] at hstep
  cases hpc : proc.pc with
  | child c' =>
    rw [hpc] at hruns hremembers hlocal
    obtain rfl : c' = c := Option.some.inj hruns
    cases e with
    | child p opens =>
      simp only [stepProc, hpc] at hstep
      obtain ⟨command, r, w, hcommand, hr, hin, hout, hcases⟩ := redirect_managers hlocal opens
      have hback := stdioBack_iff hlocal hcommand opens hr hin hout hremembers.1 hremembers.2
      rcases hcases with ⟨-, hredirect⟩ | ⟨-, -, -, argv, hredirect⟩
      · simp only [hredirect] at hstep
        rw [hafter rfl (Except.ok.inj hstep).symm]
        exact hback
      · -- it has not failed yet
        simp only [hredirect] at hstep
        rw [hafter rfl (Except.ok.inj hstep).symm] at hpc'
        cases hpc'
    | line p text => simp [stepProc, hpc] at hstep
    | eof p => simp [stepProc, hpc] at hstep
    | go p => simp [stepProc, go, hpc] at hstep
    | exec p ok => simp [stepProc, hpc] at hstep
    | act p a => simp [stepProc, hpc] at hstep
  | exec c' inManager outManager argv =>
    rw [hpc] at hruns hremembers
    obtain rfl : c' = c := Option.some.inj hruns
    cases e with
    | exec p ok =>
      simp only [stepProc, hpc] at hstep
      cases ok with
      | true =>
        rw [if_pos rfl] at hstep
        rw [hafter rfl (Except.ok.inj hstep).symm] at hpc'
        cases hpc'
      | false =>
        rw [if_neg Bool.false_ne_true] at hstep
        rw [hafter rfl (Except.ok.inj hstep).symm]
        exact hremembers.2
    | line p text => simp [stepProc, hpc] at hstep
    | eof p => simp [stepProc, hpc] at hstep
    | go p => simp [stepProc, go, hpc] at hstep
    | child p opens => simp [stepProc, hpc] at hstep
    | act p a => simp [stepProc, hpc] at hstep
  | _ =>
    rw [hpc] at hruns
    cases hruns

theorem remember_of_run {fds : Table File} (h : Started fds) (es : List Event) :
    Sat (fun s => Inv s ∧ AllRemember s) (· = .refused) (run step (init fds) es) := by
  have hstep : ∀ s e, Inv s ∧ AllRemember s → True → Sat (fun s => Inv s ∧ AllRemember s) (· = .refused) (step s e) := by
    rintro s e ⟨hinv, hs⟩ -
    have h1 := hinv.step e
    have h2 := remembers_step hinv hs e
    cases hs' : step s e with
    | ok s' =>
      rw [hs'] at h1 h2
      exact ⟨h1, h2⟩
    | error x =>
      rw [hs'] at h1
      exact h1
  have hinit : AllRemember (init fds) := fun q proc hq => by
    rw [List.mem_singleton.mp (List.mem_of_getElem? hq)]
    trivial
  exact run_sat hstep es ⟨inv_init h, hinit⟩ (along_true es _)

/-- **0 and 1 of a failed child.** In every run, whichever way a child fails, its 0 and 1 are what they were when
`Exec` was called if and only if it is not the child of a first command without a `<`. -/
theorem stdio_back {fds : Table File} (h : Started fds) (es : List Event) :
    Sat (fun s => ∀ e c fds', FailsWith s e c fds' → (StdioBack c fds' ↔ c.MovesStdin)) (· = .refused)
      (run step (init fds) es) :=
  (remember_of_run h es).mono (fun _ hs _ _ _ hfails => back_of_fails hs.1 hs.2 hfails) fun _ => id

/-- What can be compared of an event that takes a child back. -/
def failing (e : Event) (r : Except Stop State) : Option (Call × Proc) := do
  let s ← r.toOption
  let proc ← s.procs[e.pid]?
  let c ← proc.pc.runs
  let s' ← (step s e).toOption
  let proc' ← s'.procs[e.pid]?
  return (c, proc')

theorem failing_some {e : Event} {r : Except Stop State} {c : Call} {proc' : Proc} (h : failing e r = some (c, proc'))
    (hpc : proc'.pc = .getCmd) : ∃ s, r = .ok s ∧ FailsWith s e c proc'.fds := by
  obtain ⟨s, hr, h⟩ := Option.bind_eq_some_iff.mp h
  obtain ⟨proc, hp, h⟩ := Option.bind_eq_some_iff.mp h
  obtain ⟨d, hruns, h⟩ := Option.bind_eq_some_iff.mp h
  obtain ⟨s', hstep, h⟩ := Option.bind_eq_some_iff.mp h
  obtain ⟨q, hq, h⟩ := Option.bind_eq_some_iff.mp h
  cases h
  exact ⟨s, of_toOption hr, proc, s', proc', hp, hruns, of_toOption hstep, hq, hpc, rfl⟩

/-- In `a | b`, `b` cannot be executed. -/
theorem stdio_back_second : ∃ s c fds, run step (init std) launchTwo = .ok s ∧ FailsWith s (.exec 2 false) c fds ∧
    StdioBack c fds := by
  have hview : (failing (.exec 2 false) (run step (init std) launchTwo)).any fun x => x.2.pc = .getCmd && x.1.i = 1 := by
    decide +kernel
  obtain ⟨⟨c, proc'⟩, heq, hview⟩ := (Option.any_eq_true _ _).mp hview
  rw [Bool.and_eq_true, decide_eq_true_iff, decide_eq_true_iff] at hview
  obtain ⟨s, hs, hfails⟩ := failing_some heq hview.1
  have hback := stdio_back started_std launchTwo
  rw [hs] at hback
  refine ⟨s, c, _, hs, hfails, (hback _ c _ hfails).mpr fun hi => ?_⟩
  rw [hview.2] at hi
  exact absurd hi one_ne_zero

/-- A shell launches `foo`. -/
def launchFoo : List Event := [.line 0 "foo".toList, .go 0, .go 0, .go 0, .go 0, .child 1 fun _ _ => true]

/-- There is no `foo`: the child closes its standard input. -/
theorem stdin_closed : ∃ s c fds, run step (init std) launchFoo = .ok s ∧ FailsWith s (.exec 1 false) c fds ∧
    ¬ StdioBack c fds := by
  have hview : (failing (.exec 1 false) (run step (init std) launchFoo)).any fun x =>
      x.2.pc = .getCmd && get x.2.fds 0 = none && get x.1.entry 0 = some (.inherited 0) := by decide +kernel
  obtain ⟨⟨c, proc'⟩, heq, hview⟩ := (Option.any_eq_true _ _).mp hview
  simp only [Bool.and_eq_true, decide_eq_true_iff] at hview
  obtain ⟨⟨hpc, hclosed⟩, hentry⟩ := hview
  obtain ⟨s, hs, hfails⟩ := failing_some heq hpc
  refine ⟨s, c, _, hs, hfails, fun hback => ?_⟩
  rw [StdioBack, hclosed, hentry] at hback
  exact absurd hback.1 nofun

end Pipe
end Bash
end OsLabs
