/-
# Who reads the next line

A child whose `open` or `execvp` fails returns from `Exec` into `main`'s loop, and is a shell from then on; and so is
a program that is this shell. The shells of a session stand in a row as long as whoever comes into the loop is behind
all others, and nobody between two of them is gone: then all but the last are in `Exec`, and only the last one reads
(`Row.unique`). Nothing in the code keeps two children of one shell from failing, and then both read from the same
stdin (`two_readers`).

A shell that still launches does not read, but it has not come to its `wait`: `strict` asks that the other
shells of the row have.

Key definitions: `Turn`, `turn`, `Behind`, `Row`, `Apart`, `Waited`, `AtMostOne`.
-/
import OsLabs.Bash.Pipeline

namespace OsLabs
namespace Bash
namespace Pipe

open Fds Run

namespace PC

def inExec : PC → Bool
  | .launch _ | .fork _ | .close _ | .wait _ => true
  | _ => false

/-- In `main`'s loop. -/
def looping : PC → Bool
  | .getCmd => true
  | pc => pc.inExec

def waiting : PC → Bool
  | .wait _ => true
  | _ => false

/-- Where a shell may be that has a shell behind it. -/
def held (strict : Bool) (pc : PC) : Bool := if strict then pc.waiting else pc.inExec

end PC

/-! ### The tree of processes -/

/-- What can happen in the tree. -/
inductive Turn
  | event (e : Event)
  /-- A program is this shell, and comes to its `main`. -/
  | main (p : Pid)
  /-- `pipe` fails, and `Exec` returns. -/
  | noPipe (p : Pid)
  /-- `fork` fails, and the launch loop goes on without the child. -/
  | noFork (p : Pid)

def Turn.pid : Turn → Pid
  | .event e => e.pid
  | .main p | .noPipe p | .noFork p => p

def turnProc (s : State) (p : Pid) (proc : Proc) : Turn → Except Stop State
  | .event e => stepProc s p proc e
  | .main _ => if proc.pc = .program then .ok (s.put p { proc with pc := .getCmd }) else .error .refused
  | .noPipe _ =>
    match proc.pc with
    | .launch c => if c.i < c.cnt then .ok (s.put p { proc with pc := .getCmd }) else .error .refused
    | _ => .error .refused
  | .noFork _ =>
    match proc.pc with
    | .fork c => .ok (s.put p { proc with pc := .close c })
    | _ => .error .refused

def turn (s : State) (t : Turn) : Except Stop State :=
  match s.procs[t.pid]? with
  | none => .error .refused
  | some proc => turnProc s t.pid proc t

/-- `q` is `a`, or has been forked by one behind `a`, and none of those has exited. -/
inductive Behind (s : State) (a : Pid) : Pid → Prop
  | refl : Behind s a a
  | child {p q : Pid} {proc : Proc} : Behind s a p → s.procs[q]? = some proc → proc.parent = some p → proc.pc ≠ .exited →
      Behind s a q

/-- The shells of a session stand in a row. -/
structure Row (strict : Bool) (s : State) : Prop where
  older : ∀ (p q : Pid) (proc : Proc), s.procs[q]? = some proc → proc.parent = some p → p < q
  row : ∀ (p q : Pid) (proc other : Proc), s.procs[p]? = some proc → s.procs[q]? = some other → proc.pc.looping →
    other.pc.looping → p ≠ q → Behind s p q ∧ proc.pc.held strict ∨ Behind s q p ∧ other.pc.held strict

/-- No shell is behind `p`. -/
def Last (s : State) (p : Pid) : Prop :=
  ∀ (q : Pid) (other : Proc), s.procs[q]? = some other → other.pc.looping → Behind s p q → q = p

/-- `p` is behind all shells, and these are where they must be. -/
def Next (strict : Bool) (s : State) (p : Pid) : Prop :=
  ∀ (q : Pid) (other : Proc), s.procs[q]? = some other → other.pc.looping → Behind s q p ∧ other.pc.held strict

section

variable {strict : Bool} {s : State} {p q a : Pid} {proc new child other : Proc}

theorem Behind.le (h : Behind s a q) (holder : ∀ (p q : Pid) (proc : Proc), s.procs[q]? = some proc → proc.parent = some p → p < q) :
    a ≤ q := by
  induction h with
  | refl => exact le_rfl
  | child _ hq hparent _ ih => exact ih.trans (holder _ _ _ hq hparent).le

/-- Whoever is behind `a` is so through a child of it. -/
theorem Behind.through (h : Behind s a q) : q = a ∨ ∃ (r : Pid) (proc : Proc), s.procs[r]? = some proc ∧ proc.parent = some a ∧
    proc.pc ≠ .exited := by
  induction h with
  | refl => exact .inl rfl
  | @child p q proc _ hq hparent hlive ih =>
    rcases ih with rfl | h
    · exact .inr ⟨q, proc, hq, hparent, hlive⟩
    · exact .inr h

theorem last_of_childless (h : ∀ (r : Pid) (proc : Proc), s.procs[r]? = some proc → proc.parent = some p → proc.pc = .exited) :
    Last s p := by
  intro q other _ _ hbehind
  refine hbehind.through.resolve_right ?_
  rintro ⟨r, proc, hr, hparent, hlive⟩
  exact hlive (h r proc hr hparent)

/-- Only the last shell of the row can do anything but what `strict` allows. -/
theorem Row.unique (h : Row strict s) (hp : s.procs[p]? = some proc) (hq : s.procs[q]? = some other)
    (hlp : proc.pc.looping) (hlq : other.pc.looping) (hnp : proc.pc.held strict = false)
    (hnq : other.pc.held strict = false) : p = q := by
  by_contra hne
  rcases h.row p q proc other hp hq hlp hlq hne with ⟨-, hheld⟩ | ⟨-, hheld⟩
  · rw [hnp] at hheld
    exact absurd hheld nofun
  · rw [hnq] at hheld
    exact absurd hheld nofun

/-- A shell that is not held is the last one. -/
theorem Row.last (h : Row strict s) (hp : s.procs[p]? = some proc) (hl : proc.pc.looping) (hn : proc.pc.held strict = false) :
    Last s p := by
  intro q other hq hlq hbehind
  by_contra hne
  rcases h.row p q proc other hp hq hl hlq (Ne.symm hne) with ⟨-, hheld⟩ | ⟨hback, -⟩
  · rw [hn] at hheld
    exact absurd hheld nofun
  · exact hne (Nat.le_antisymm (hback.le h.older) (hbehind.le h.older))

/-! ### Steps -/

/-- A step of one process that keeps the row. -/
structure Goes (strict : Bool) (s : State) (p : Pid) (proc new : Proc) : Prop where
  parent : new.parent = proc.parent
  looping : new.pc.looping = true → proc.pc.looping = true ∨ Next strict s p
  held : proc.pc.held strict = true → new.pc.held strict = true ∨ Last s p
  exited : new.pc = .exited → proc.pc = .exited ∨ Last s p

/-- Who is behind `a` still is, or was behind `p`, which has exited. -/
theorem Behind.put (hp : s.procs[p]? = some proc) (hparent : new.parent = proc.parent) (h : Behind s a q) :
    Behind (s.put p new) a q ∨ new.pc = .exited ∧ proc.pc ≠ .exited ∧ Behind s p q := by
  induction h with
  | refl => exact .inl .refl
  | @child r q proc' _ hq hr hlive ih =>
    rcases ih with ih | ⟨hnew, hold, ih⟩
    · by_cases hqp : q = p
      · subst hqp
        obtain rfl : proc = proc' := Option.some.inj (hp.symm.trans hq)
        by_cases hnew : new.pc = .exited
        · exact .inr ⟨hnew, hlive, .refl⟩
        · exact .inl (.child ih (put_self hp) (hparent.trans hr) hnew)
      · exact .inl (.child ih ((put_ne hqp).trans hq) hr hlive)
    · exact .inr ⟨hnew, hold, .child ih hq hr hlive⟩

theorem Behind.add (new : Proc) (h : Behind s a q) : Behind (s.add new) a q := by
  induction h with
  | refl => exact .refl
  | child _ hq hparent hlive ih => exact .child ih (add_old hq) hparent hlive

theorem Behind.congr {s' : State} (hprocs : s'.procs = s.procs) (h : Behind s a q) : Behind s' a q := by
  induction h with
  | refl => exact .refl
  | child _ hq hparent hlive ih => exact .child ih ((congrArg (·[_]?) hprocs).trans hq) hparent hlive

/-- Two shells of which one is `p`. -/
theorem Goes.row (hgo : Goes strict s p proc new) (h : Row strict s) (hp : s.procs[p]? = some proc) (hq : s.procs[q]? = some other)
    (hnew : new.pc.looping) (hl : other.pc.looping) (hne : p ≠ q) :
    Behind (s.put p new) p q ∧ new.pc.held strict ∨ Behind (s.put p new) q p ∧ other.pc.held strict := by
  have hstays : new.pc ≠ .exited := fun hn => by
    rw [hn] at hnew
    exact absurd hnew nofun
  have hput : ∀ {a b}, Behind s a b → Behind (s.put p new) a b := fun hb =>
    (hb.put hp hgo.parent).resolve_right fun hn => hstays hn.1
  rcases hgo.looping hnew with hlp | hnext
  · rcases h.row p q proc other hp hq hlp hl hne with ⟨hbehind, hheld⟩ | ⟨hbehind, hheld⟩
    · refine .inl ⟨hput hbehind, (hgo.held hheld).resolve_right fun hlast => ?_⟩
      exact hne (hlast q other hq hl hbehind).symm
    · exact .inr ⟨hput hbehind, hheld⟩
  · obtain ⟨hbehind, hheld⟩ := hnext q other hq hl
    exact .inr ⟨hput hbehind, hheld⟩

theorem Row.goes (h : Row strict s) (hp : s.procs[p]? = some proc) (hgo : Goes strict s p proc new) : Row strict (s.put p new) := by
  refine ⟨fun r q proc' hq hparent => ?_, fun q r proc₁ proc₂ hq hr hl1 hl2 hne => ?_⟩
  · rcases put_cases hq with ⟨rfl, rfl⟩ | ⟨-, hq⟩
    · exact h.older r q proc hp (hgo.parent.symm.trans hparent)
    · exact h.older r q proc' hq hparent
  · rcases put_cases hq with ⟨rfl, rfl⟩ | ⟨hqp, hold⟩ <;> rcases put_cases hr with ⟨rfl, rfl⟩ | ⟨hrp, hold'⟩
    · exact absurd rfl hne
    · exact hgo.row h hp hold' hl1 hl2 hne
    · exact (hgo.row h hp hold hl2 hl1 (Ne.symm hne)).symm
    · -- two others: they stay in a row, since nobody exits who has one of them behind it
      have hput : ∀ {a b proc'}, s.procs[b]? = some proc' → proc'.pc.looping → b ≠ p → Behind s a b → Behind (s.put p new) a b :=
        fun hb hl hbp hbehind => (hbehind.put hp hgo.parent).resolve_right fun ⟨hnew, hlive, hpb⟩ =>
          hbp ((hgo.exited hnew).resolve_left hlive _ _ hb hl hpb)
      exact (h.row q r proc₁ proc₂ hold hold' hl1 hl2 hne).imp (And.imp_left (hput hold' hl2 hrp)) (And.imp_left (hput hold hl1 hqp))

/-- A new process is no shell yet. -/
theorem Row.add (h : Row strict s) (hp : s.procs[p]? = some proc) (hparent : child.parent = some p)
    (hloop : child.pc.looping = false) : Row strict (s.add child) := by
  have hold : ∀ {q : Pid} {proc' : Proc}, (s.add child).procs[q]? = some proc' → proc'.pc.looping →
      s.procs[q]? = some proc' := fun hq hl => by
    rcases add_cases hq with ⟨-, rfl⟩ | hq
    · rw [hloop] at hl
      exact absurd hl nofun
    · exact hq
  refine ⟨fun r q proc' hq hr => ?_, fun q r proc₁ proc₂ hq hr hl1 hl2 hne => ?_⟩
  · rcases add_cases hq with ⟨rfl, rfl⟩ | hq
    · obtain rfl : p = r := Option.some.inj (hparent.symm.trans hr)
      exact (List.getElem?_eq_some_iff.mp hp).1
    · exact h.older r q proc' hq hr
  · exact (h.row q r proc₁ proc₂ (hold hq hl1) (hold hr hl2) hl1 hl2 hne).imp (And.imp_left (Behind.add child))
      (And.imp_left (Behind.add child))

theorem Row.congr {s' : State} (h : Row strict s) (hprocs : s'.procs = s.procs) : Row strict s' := by
  refine ⟨fun p q proc hq => h.older p q proc (by rwa [← hprocs]), fun p q proc other hp hq hl1 hl2 hne => ?_⟩
  rw [hprocs] at hp hq
  exact (h.row p q proc other hp hq hl1 hl2 hne).imp (And.imp_left (Behind.congr hprocs)) (And.imp_left (Behind.congr hprocs))

/-- From `a` to `b` a process neither leaves a shell behind alone nor becomes one. -/
def PC.follows (strict : Bool) (a b : PC) : Bool := (!b.looping || a.looping) && (!a.held strict || b.held strict) && b ≠ .exited

theorem Goes.of_follows (hparent : new.parent = proc.parent) (h : PC.follows strict proc.pc new.pc = true) :
    Goes strict s p proc new := by
  simp only [PC.follows, Bool.and_eq_true, Bool.or_eq_true, Bool.not_eq_true', decide_eq_true_eq] at h
  obtain ⟨⟨hl, hh⟩, hx⟩ := h
  exact ⟨hparent, fun hn => .inl (hl.resolve_left (by simp [hn])), fun hn => .inl (hh.resolve_left (by simp [hn])),
    fun hn => absurd hn hx⟩

end

/-! ### Who may become a shell -/

/-- A child's `open` or `execvp` fails. -/
def Proc.fails (proc : Proc) : Event → Bool
  | .child _ opens =>
    match proc.pc with
    | .child c => c.fails opens
    | _ => false
  | .exec _ ok =>
    match proc.pc with
    | .exec _ _ _ _ => !ok
    | _ => false
  | _ => false

/-- The process comes into `main`'s loop. -/
def Proc.enters (proc : Proc) : Turn → Bool
  | .event e => proc.fails e
  | .main _ => true
  | _ => false

/-- A program exits, or a shell's `Exec` returns without its `wait`. -/
def Proc.leaves (proc : Proc) : Turn → Bool
  | .event (.act _ .exit) => proc.pc = .program
  | .noPipe _ => true
  | _ => false

/-- A process comes into the loop only behind all the shells, these being in `Exec`; and none leaves that has a shell
behind it. -/
def Apart (s : State) (t : Turn) : Prop :=
  ∀ proc ∈ s.procs[t.pid]?, (proc.enters t = true → Next false s t.pid) ∧ (proc.leaves t = true → Last s t.pid)

/-- And only while all the shells wait. -/
def Waited (s : State) (t : Turn) : Prop :=
  ∀ proc ∈ s.procs[t.pid]?, proc.enters t = true → ∀ other ∈ s.procs, other.pc.looping = true → other.pc.waiting = true

section

variable {strict : Bool} {s : State} {p : Pid} {proc : Proc} {c : Call}

/-- `Exec` returns when all children have exited. -/
theorem goes_wait (hpc : proc.pc = .wait c) (hchild : ¬ s.hasChild p = true) :
    Goes strict s p proc { proc with pc := .getCmd } := by
  refine ⟨rfl, fun _ => .inl ?_, fun _ => .inr (last_of_childless fun q child hq hparent => ?_), nofun⟩
  · rw [hpc]
    rfl
  · by_contra hn
    apply hchild
    apply List.any_eq_true.mpr
    exact ⟨child, List.mem_of_getElem? hq, by simp [hparent, hn]⟩

/-- A process that comes into the loop becomes the last shell of the row. -/
theorem goes_enter {t : Turn} (hp : s.procs[t.pid]? = some proc) (henters : proc.enters t = true)
    (hpc : proc.pc.held strict = false) (hapart : Apart s t) (hwaited : strict = true → Waited s t) (fds : Table File) :
    Goes strict s t.pid proc { proc with fds := fds, pc := .getCmd } := by
  have hmem : proc ∈ s.procs[t.pid]? := by rw [hp]; rfl
  refine ⟨rfl, fun _ => .inr fun q other hq hl => ?_, fun hn => ?_, nofun⟩
  · obtain ⟨hbehind, hexec⟩ := (hapart proc hmem).1 henters q other hq hl
    cases strict with
    | true => exact ⟨hbehind, hwaited rfl proc hmem henters other (List.mem_of_getElem? hq) hl⟩
    | false => exact ⟨hbehind, hexec⟩
  · rw [hpc] at hn
    exact absurd hn nofun

/-- A call that `Exec` has made of a line it accepts. -/
structure Call.Sane (c : Call) : Prop where
  cnt : c.cnt = c.commands.length
  fit : ∀ command ∈ c.commands, Fit command

def PC.Sane : PC → Prop
  | .launch c => c.Sane
  | .fork c | .close c | .child c => c.Sane ∧ c.i < c.cnt
  | _ => True

theorem foldl_ioError (opens : Mode → Text → Bool) (mode : Mode) (paths : List Text) (r : Redirect) :
    (paths.foldl (fun r path => dupWithOpen opens r mode path) r).ioError = (r.ioError || paths.any fun path => !opens mode path) := by
  induction paths generalizing r with
  | nil => simp
  | cons path paths ih =>
    have hone : (dupWithOpen opens r mode path).ioError = (r.ioError || !opens mode path) := by
      unfold dupWithOpen
      cases opens mode path <;> simp
    rw [List.foldl_cons, ih, hone, List.any_cons, Bool.or_assoc]

/-- Whatever descriptors a child has, it fails exactly if a file cannot be opened. -/
theorem redirect_fails (hsane : c.Sane) (hlt : c.i < c.cnt) (opens : Mode → Text → Bool) (fds : Table File) : ∃ fds',
    c.fails opens = true ∧ redirect c opens fds = .ok (fds', .getCmd) ∨
    c.fails opens = false ∧ ∃ inManager outManager argv, redirect c opens fds = .ok (fds', .exec c inManager outManager argv) := by
  have hi : c.i < c.commands.length := by
    rw [← hsane.cnt]
    exact hlt
  have hcommand : c.commands[c.i]? = some c.commands[c.i] := List.getElem?_eq_getElem hi
  generalize c.commands[c.i] = command at hcommand
  have hfit := (hsane.fit command (List.mem_of_getElem? hcommand)).1
  have hin : ∃ r, redirectIn c command opens fds = .ok r ∧ r.ioError = (c.i = 0 && missing opens .read command) := by
    unfold redirectIn
    split_ifs with hz
    · exact ⟨_, validate_files hfit (dupWithOpen opens) .read _, by simp [foldl_ioError, missing, hz]⟩
    · exact ⟨_, rfl, by simp [hz]⟩
  obtain ⟨r, hr, hrerr⟩ := hin
  have hout : ∃ w, redirectOut c command opens r.fds = .ok w ∧ w.ioError = (c.i = c.cnt - 1 && missing opens .write command) := by
    unfold redirectOut
    split_ifs with hz
    · exact ⟨_, validate_files hfit (dupWithOpen opens) .write _, by simp [foldl_ioError, missing, hz]⟩
    · exact ⟨_, rfl, by simp [hz]⟩
  obtain ⟨w, hw, hwerr⟩ := hout
  have hfails : c.fails opens = (r.ioError || w.ioError) := by rw [Call.fails, hcommand, Option.any_some, hrerr, hwerr]
  unfold redirect
  rw [hfails]
  simp only [hcommand, hr, ok_bind]
  cases r.ioError with
  | true => exact ⟨_, .inl ⟨rfl, rfl⟩⟩
  | false =>
    simp only [hw, ok_bind, Bool.false_eq_true, if_false, Bool.false_or]
    cases w.ioError with
    | true => exact ⟨_, .inl ⟨rfl, rfl⟩⟩
    | false =>
      refine ⟨w.fds, .inr ⟨rfl, r.manager, w.manager, filled (args command) 1, ?_⟩⟩
      rw [getArgv_eq hfit]
      rfl

/-- What every turn preserves. -/
structure Standing (strict : Bool) (s : State) : Prop where
  sane : ∀ proc ∈ s.procs, proc.pc.Sane
  row : Row strict s

theorem Standing.put {new : Proc} (h : Standing strict s) (hp : s.procs[p]? = some proc) (hsane : new.pc.Sane)
    (hgo : Goes strict s p proc new) : Standing strict (s.put p new) := by
  refine ⟨fun other hother => ?_, h.row.goes hp hgo⟩
  rcases List.mem_or_eq_of_mem_set hother with hother | rfl
  · exact h.sane other hother
  · exact hsane

theorem Standing.add {child : Proc} (h : Standing strict s) (hp : s.procs[p]? = some proc) (hparent : child.parent = some p)
    (hloop : child.pc.looping = false) (hsane : child.pc.Sane) : Standing strict (s.add child) := by
  refine ⟨fun other hother => ?_, h.row.add hp hparent hloop⟩
  rcases List.mem_append.mp hother with hother | hother
  · exact h.sane other hother
  · rwa [List.mem_singleton.mp hother]

theorem Standing.congr {s' : State} (h : Standing strict s) (hprocs : s'.procs = s.procs) : Standing strict s' :=
  ⟨hprocs ▸ h.sane, h.row.congr hprocs⟩

theorem standing_go (h : Standing strict s) (hp : s.procs[p]? = some proc) : Sat (Standing strict) (· = .refused) (go s p proc) := by
  have hsane := h.sane proc (List.mem_of_getElem? hp)
  unfold go
  cases hpc : proc.pc with
  | launch c =>
    rw [hpc] at hsane
    by_cases hlt : c.i < c.cnt
    · simp only [if_pos hlt]
      refine @Standing.congr strict (s.put p _) _ ?_ rfl
      exact h.put hp ⟨⟨hsane.cnt, hsane.fit⟩, hlt⟩ (Goes.of_follows rfl (by rw [hpc]; cases strict <;> rfl))
    · simp only [if_neg hlt]
      exact h.put hp trivial (Goes.of_follows rfl (by rw [hpc]; cases strict <;> rfl))
  | fork c =>
    rw [hpc] at hsane
    have hgo : Standing strict (s.put p { proc with pc := .close c }) :=
      h.put hp hsane (Goes.of_follows rfl (by rw [hpc]; cases strict <;> rfl))
    exact (hgo.add (put_self hp) rfl rfl hsane).congr rfl
  | close c =>
    rw [hpc] at hsane
    exact h.put hp ⟨hsane.1.cnt, hsane.1.fit⟩ (Goes.of_follows rfl (by rw [hpc]; cases strict <;> rfl))
  | wait c =>
    simp only
    split_ifs with hchild
    · exact rfl
    · exact h.put hp trivial (goes_wait hpc hchild)
  | _ => exact rfl

theorem standing_act (h : Standing strict s) (hp : s.procs[p]? = some proc) (hpc : proc.pc = .program) {a : Act}
    (hexit : a = .exit → Last s p) : Standing strict (act s p proc a) := by
  have hsame : ∀ fds, Standing strict (s.put p { proc with fds := fds }) := fun fds =>
    h.put hp (by rw [hpc]; trivial) (Goes.of_follows rfl (by rw [hpc]; cases strict <;> rfl))
  cases a with
  | close fd => exact hsame _
  | dup2 old new => exact hsame _
  | obtain k => exact hsame _
  | fork => exact h.add hp rfl (by rw [hpc]; rfl) (by rw [hpc]; trivial)
  | exit =>
    refine h.put hp trivial ⟨rfl, nofun, fun hn => ?_, fun _ => .inr (hexit rfl)⟩
    rw [hpc] at hn
    cases strict <;> exact absurd hn nofun

/-- What an event of the pipeline's processes does. -/
theorem standing_event (h : Standing strict s) {e : Event} (hp : s.procs[e.pid]? = some proc) (hapart : Apart s (.event e))
    (hwaited : strict = true → Waited s (.event e)) : Sat (Standing strict) (· = .refused) (stepProc s e.pid proc e) := by
  have hsane := h.sane proc (List.mem_of_getElem? hp)
  cases e with
  | line p text =>
    simp only [stepProc]
    split_ifs with hready
    · obtain ⟨out, hout, -⟩ := exec_eq (tokenizerInit text) rfl
      rw [hout]
      cases out with
      | launch commands cnt =>
        obtain ⟨hcnt, -, hfit⟩ := fit_of_launch hout
        exact h.put hp ⟨hcnt, hfit⟩ (Goes.of_follows rfl (by rw [hready.1]; cases strict <;> rfl))
      | _ => exact h
    · exact rfl
  | eof p =>
    simp only [stepProc]
    split_ifs with hpc
    · have hfree : proc.pc.held strict = false := by rw [hpc]; cases strict <;> rfl
      refine h.put hp trivial ⟨rfl, (by rintro ⟨⟩), fun hn => ?_, fun _ => .inr (h.row.last hp (by rw [hpc]; rfl) hfree)⟩
      rw [hfree] at hn
      cases hn
    · exact rfl
  | go p => exact standing_go h hp
  | child p opens =>
    simp only [stepProc]
    cases hpc : proc.pc with
    | child c =>
      rw [hpc] at hsane
      obtain ⟨fds', ⟨hfails, hredirect⟩ | ⟨-, inManager, outManager, argv, hredirect⟩⟩ :=
        redirect_fails hsane.1 hsane.2 opens proc.fds
      · simp only [hredirect]
        exact h.put hp trivial (goes_enter (t := .event (.child p opens)) hp (by simp only [Proc.enters, Proc.fails, hpc, hfails])
          (by rw [hpc]; cases strict <;> rfl) hapart hwaited _)
      · simp only [hredirect]
        exact h.put hp trivial (Goes.of_follows rfl (by rw [hpc]; cases strict <;> rfl))
    | _ => exact rfl
  | exec p ok =>
    simp only [stepProc]
    cases hpc : proc.pc with
    | exec c inManager outManager argv =>
      cases ok with
      | true => exact h.put hp trivial (Goes.of_follows rfl (by rw [hpc]; cases strict <;> rfl))
      | false =>
        exact h.put hp trivial (goes_enter (t := .event (.exec p false)) hp (by simp only [Proc.enters, Proc.fails, hpc]; rfl)
          (by rw [hpc]; cases strict <;> rfl) hapart hwaited _)
    | _ => exact rfl
  | act p a =>
    simp only [stepProc]
    split_ifs with hpc
    · refine standing_act h hp hpc fun ha => ?_
      subst ha
      exact (hapart proc (by rw [Turn.pid, hp]; rfl)).2 (by simp [Proc.leaves, hpc])
    · exact rfl

theorem standing_turn (h : Standing strict s) (t : Turn) (hapart : Apart s t) (hwaited : strict = true → Waited s t) :
    Sat (Standing strict) (· = .refused) (turn s t) := by
  unfold turn
  cases hp : s.procs[t.pid]? with
  | none => exact rfl
  | some proc =>
    have hmem : proc ∈ s.procs[t.pid]? := by rw [hp]; rfl
    have hsane := h.sane proc (List.mem_of_getElem? hp)
    cases t with
    | event e => exact standing_event h hp hapart hwaited
    | main p =>
      simp only [turnProc]
      split_ifs with hpc
      · exact h.put hp trivial (goes_enter hp rfl (by rw [hpc]; cases strict <;> rfl) hapart hwaited proc.fds)
      · exact rfl
    | noPipe p =>
      simp only [turnProc]
      cases hpc : proc.pc with
      | launch c =>
        simp only
        split_ifs
        · refine h.put hp trivial ⟨rfl, fun _ => .inl (by rw [hpc]; rfl), fun _ => .inr ((hapart proc hmem).2 rfl), nofun⟩
        · exact rfl
      | _ => exact rfl
    | noFork p =>
      simp only [turnProc]
      cases hpc : proc.pc with
      | fork c =>
        rw [hpc] at hsane
        exact h.put hp hsane (Goes.of_follows rfl (by rw [hpc]; cases strict <;> rfl))
      | _ => exact rfl

end

theorem standing_init (strict : Bool) (fds : Table File) : Standing strict (init fds) := by
  have hone : ∀ {q : Pid} {proc : Proc}, (init fds).procs[q]? = some proc → q = 0 ∧ proc = ⟨none, fds, .getCmd⟩ := fun {q proc} hq => by
    cases q with
    | zero =>
      cases hq
      exact ⟨rfl, rfl⟩
    | succ q => exact absurd hq nofun
  refine ⟨fun proc hproc => ?_, fun p q proc hq hparent => ?_, fun p q proc other hp hq _ _ hne => ?_⟩
  · rw [List.mem_singleton.mp hproc]
    trivial
  · rw [(hone hq).2] at hparent
    exact absurd hparent nofun
  · exact absurd ((hone hp).1.trans (hone hq).1.symm) hne

/-- At most one process is where `P` says. -/
def AtMostOne (P : PC → Prop) (s : State) : Prop :=
  ∀ (p q : Pid) (proc proc' : Proc), s.procs[p]? = some proc → s.procs[q]? = some proc' → P proc.pc → P proc'.pc → p = q

/-- A run along which processes come into the loop as they must keeps the row. -/
theorem standing_run (fds : Table File) (strict : Bool) (ts : List Turn)
    (hts : Along turn (fun s t => Apart s t ∧ (strict = true → Waited s t)) (init fds) ts) :
    Sat (Standing strict) (· = .refused) (run turn (init fds) ts) :=
  run_sat (fun _ t hs hcond => standing_turn hs t hcond.1 hcond.2) ts (standing_init strict fds) hts

/-- **One process reads the lines.** In a run in which every process that comes into `main`'s loop is behind all the shells,
and none leaves that has a shell behind it, at most one process is at `GetCmd` in every state; and if all the shells have
always come to their `wait` by then, at most one process is in `main`'s loop and does not wait for its children. -/
theorem one_reader (fds : Table File) (ts : List Turn) :
    (Along turn Apart (init fds) ts → Sat (AtMostOne (· = .getCmd)) (· = .refused) (run turn (init fds) ts)) ∧
    (Along turn (fun s t => Apart s t ∧ Waited s t) (init fds) ts →
      Sat (AtMostOne fun pc => pc.looping = true ∧ pc.waiting = false) (· = .refused) (run turn (init fds) ts)) := by
  constructor
  · intro hts
    have hts' : Along turn (fun s t => Apart s t ∧ (false = true → Waited s t)) (init fds) ts :=
      along_mono (fun s t hs => ⟨hs, nofun⟩) ts hts
    refine (standing_run fds false ts hts').mono (fun s hs p q proc proc' hp hq hpc hpc' => ?_) fun _ => id
    apply hs.row.unique hp hq <;> simp [hpc, hpc', PC.looping, PC.held, PC.inExec]
  · intro hts
    have hts' : Along turn (fun s t => Apart s t ∧ (true = true → Waited s t)) (init fds) ts :=
      along_mono (fun s t hs => ⟨hs.1, fun _ => hs.2⟩) ts hts
    refine (standing_run fds true ts hts').mono (fun s hs p q proc proc' hp hq hpc hpc' => ?_) fun _ => id
    exact hs.row.unique hp hq hpc.1 hpc'.1 hpc.2 hpc'.2

/-! ### Two runs -/

/-- `Behind`, as far as `n` parents. -/
def State.behind (s : State) (a : Pid) : ℕ → Pid → Bool
  | 0, q => q = a
  | n + 1, q => q = a || s.procs[q]?.any fun proc => proc.pc ≠ .exited && proc.parent.any (s.behind a n)

theorem behind_of_eq {s : State} {a : Pid} : ∀ {n : ℕ} {q : Pid}, s.behind a n q = true → Behind s a q
  | 0, q, h => by
    obtain rfl : q = a := of_decide_eq_true h
    exact .refl
  | n + 1, q, h => by
    rcases Bool.or_eq_true_iff.mp h with h | h
    · obtain rfl : q = a := of_decide_eq_true h
      exact .refl
    · obtain ⟨proc, hq, h⟩ := (Option.any_eq_true _ _).mp h
      rw [Bool.and_eq_true, decide_eq_true_eq] at h
      obtain ⟨p, hparent, hp⟩ := (Option.any_eq_true _ _).mp h.2
      exact .child (behind_of_eq hp) hq hparent h.1

/-- Nobody leaves, and whoever comes into the loop is behind the shells. -/
def State.apart (s : State) (t : Turn) : Bool :=
  s.procs[t.pid]?.all fun proc => !proc.leaves t && (!proc.enters t || (List.range s.procs.length).all fun q =>
    s.procs[q]?.all fun other => !other.pc.looping || s.behind q s.procs.length t.pid && other.pc.inExec)

theorem apart_of_eq {s : State} {t : Turn} (h : s.apart t = true) : Apart s t := by
  intro proc hproc
  have hall := (Option.all_eq_true _ _).mp h proc hproc
  rw [Bool.and_eq_true, Bool.or_eq_true, Bool.not_eq_true', Bool.not_eq_true', List.all_eq_true] at hall
  refine ⟨fun henters q other hq hl => ?_, fun hleaves => ?_⟩
  · have hone := (hall.2.resolve_left (by simp [henters])) q (List.mem_range.mpr (List.getElem?_eq_some_iff.mp hq).1)
    have hone := (Option.all_eq_true _ _).mp hone other hq
    rw [Bool.or_eq_true, Bool.and_eq_true, Bool.not_eq_true'] at hone
    obtain ⟨hbehind, hexec⟩ := hone.resolve_left (by simp [hl])
    exact ⟨behind_of_eq hbehind, hexec⟩
  · rw [hall.1] at hleaves
    exact absurd hleaves nofun

instance (s : State) (t : Turn) : Decidable (Waited s t) := by unfold Waited; infer_instance

/-- A shell launches the command `sh`, which is this shell; that one launches `foo`, which is not there. -/
def inner : List Turn :=
  [.event (.line 0 "sh".toList), .event (.go 0), .event (.go 0), .event (.go 0), .event (.go 0),
    .event (.child 1 fun _ _ => true), .event (.exec 1 true), .main 1,
    .event (.line 1 "foo".toList), .event (.go 1), .event (.go 1), .event (.go 1), .event (.go 1),
    .event (.child 2 fun _ _ => true), .event (.exec 2 false)]

/-- The three stand in a row, and only the last one reads. -/
theorem one_reader_inner : ∃ s proc, run turn (init std) inner = .ok s ∧ s.procs[2]? = some proc ∧ proc.pc = .getCmd ∧
    AtMostOne (· = .getCmd) s ∧ AtMostOne (fun pc => pc.looping = true ∧ pc.waiting = false) s := by
  have hview : (view 2 0 (run turn (init std) inner)).any fun x => x.1.pc = .getCmd := by decide +kernel
  obtain ⟨⟨proc, owner⟩, heq, hpc⟩ := (Option.any_eq_true _ _).mp hview
  obtain ⟨s, hs, hp, -⟩ := view_some heq
  have hcheck : Along turn (fun s t => s.apart t = true ∧ Waited s t) (init std) inner := by decide +kernel
  have hwaited : Along turn (fun s t => Apart s t ∧ Waited s t) (init std) inner :=
    along_mono (fun _ _ ht => ⟨apart_of_eq ht.1, ht.2⟩) inner hcheck
  have hone := (one_reader std inner).1 (along_mono (fun _ _ ht => ht.1) inner hwaited)
  have hactive := (one_reader std inner).2 hwaited
  rw [hs] at hone hactive
  exact ⟨s, proc, hs, hp, of_decide_eq_true hpc, hone, hactive⟩

/-- A shell launches `true | foo | bar`, and there is no `foo` and no `bar`. -/
def failTwo : List Turn :=
  .event (.line 0 "true | foo | bar".toList) :: List.replicate 10 (.event (.go 0)) ++
    [.event (.child 1 fun _ _ => true), .event (.child 2 fun _ _ => true), .event (.child 3 fun _ _ => true),
      .event (.exec 1 true), .event (.exec 2 false), .event (.exec 3 false)]

/-- Then there are two processes at `GetCmd`, with one stdin. -/
theorem two_readers : ∃ s proc proc', run turn (init std) failTwo = .ok s ∧ s.procs[2]? = some proc ∧
    s.procs[3]? = some proc' ∧ get proc.fds 0 = some (.inherited 0) ∧ get proc'.fds 0 = some (.inherited 0) ∧
    ¬ AtMostOne (· = .getCmd) s ∧ ¬ AtMostOne (fun pc => pc.looping = true ∧ pc.waiting = false) s := by
  have hview : ∀ p ∈ [2, 3], (view p 0 (run turn (init std) failTwo)).any fun x =>
      x.1.pc = .getCmd && get x.1.fds 0 = some (.inherited 0) := by decide +kernel
  have hproc : ∀ p ∈ [2, 3], ∃ s proc, run turn (init std) failTwo = .ok s ∧ s.procs[p]? = some proc ∧ proc.pc = .getCmd ∧
      get proc.fds 0 = some (.inherited 0) := by
    intro p hp
    obtain ⟨⟨proc, owner⟩, heq, hpc⟩ := (Option.any_eq_true _ _).mp (hview p hp)
    obtain ⟨s, hs, hproc, -⟩ := view_some heq
    rw [Bool.and_eq_true, decide_eq_true_eq, decide_eq_true_eq] at hpc
    exact ⟨s, proc, hs, hproc, hpc⟩
  obtain ⟨s, proc, hs, hp, hpc, hstdin⟩ := hproc 2 (by simp)
  obtain ⟨s', proc', hs', hp', hpc', hstdin'⟩ := hproc 3 (by simp)
  obtain rfl : s = s' := Except.ok.inj (hs.symm.trans hs')
  refine ⟨s, proc, proc', hs, hp, hp', hstdin, hstdin', fun hone => ?_, fun hone => ?_⟩
  · exact absurd (hone 2 3 proc proc' hp hp' hpc hpc') (by decide)
  · exact absurd (hone 2 3 proc proc' hp hp' (by rw [hpc]; exact ⟨rfl, rfl⟩) (by rw [hpc']; exact ⟨rfl, rfl⟩)) (by decide)

end Pipe
end Bash
end OsLabs
