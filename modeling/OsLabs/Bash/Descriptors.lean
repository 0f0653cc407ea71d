/-
# The descriptors of a session

What the descriptors of all processes refer to, in every state of a session. A shell
in its launch loop holds the read ends of all the pipes that it has made, since it closes none of
them; of the write ends it holds only the one of the pipe just made, from `pipe` to `close`. From the
`fork` on, the pipe has an owner, the child that it was made for, and nobody holds its
write end who is not the owner or forked by it.

`Stepped` says once what a step can do: most steps move one process (`Moves`), and the three that do not are a
program's `fork`, and `pipe` and `fork` in a launch loop. `inv_of_run` is the invariant of every run.

Key definitions: `Head`, `Inv`, `Moves`, `Stepped`.
-/
import OsLabs.Bash.Redirects

namespace OsLabs
namespace Bash
namespace Pipe

open Fds Run

/-! ### Processes -/

/-- `q` is `a`, or has been forked by it or by one that has. -/
inductive Descends (s : State) (a : Pid) : Pid → Prop
  | refl : Descends s a a
  | child {p q : Pid} {proc : Proc} : Descends s a p → s.procs[q]? = some proc → proc.parent = some p → Descends s a q

section

variable {s s' : State} {p q a : Pid} {proc proc' new : Proc}

theorem put_cases (h : (s.put p new).procs[q]? = some proc) : q = p ∧ proc = new ∨ q ≠ p ∧ s.procs[q]? = some proc := by
  have h : (s.procs.set p new)[q]? = some proc := h
  by_cases hq : q = p
  · subst hq
    rw [List.getElem?_set_self'] at h
    obtain ⟨_, -, rfl⟩ := Option.map_eq_some_iff.mp h
    exact Or.inl ⟨rfl, rfl⟩
  · rw [List.getElem?_set_ne (Ne.symm hq)] at h
    exact Or.inr ⟨hq, h⟩

theorem put_self (hp : s.procs[p]? = some proc) : (s.put p new).procs[p]? = some new := by
  have hlt := (List.getElem?_eq_some_iff.mp hp).1
  exact List.getElem?_set_self hlt

theorem put_ne (hq : q ≠ p) : (s.put p new).procs[q]? = s.procs[q]? := List.getElem?_set_ne (Ne.symm hq)

theorem add_cases (h : (s.add new).procs[q]? = some proc) : q = s.procs.length ∧ proc = new ∨ s.procs[q]? = some proc := by
  have h : (s.procs ++ [new])[q]? = some proc := h
  rcases Nat.lt_trichotomy q s.procs.length with hlt | heq | hgt
  · rw [List.getElem?_append_left hlt] at h
    exact Or.inr h
  · rw [heq, List.getElem?_append_right le_rfl, Nat.sub_self] at h
    exact Or.inl ⟨heq, (Option.some.inj h).symm⟩
  · rw [List.getElem?_eq_none (by simp; omega)] at h
    exact absurd h nofun

theorem add_old (h : s.procs[q]? = some proc) : (s.add new).procs[q]? = some proc := by
  have hlt := (List.getElem?_eq_some_iff.mp h).1
  exact (List.getElem?_append_left hlt).trans h

theorem add_new (s : State) (new : Proc) : (s.add new).procs[s.procs.length]? = some new := by
  show (s.procs ++ [new])[s.procs.length]? = some new
  rw [List.getElem?_append_right le_rfl, Nat.sub_self]
  rfl

/-- No process is lost, and none changes its parent. -/
def Keeps (s s' : State) : Prop :=
  ∀ (q : Pid) (proc : Proc), s.procs[q]? = some proc → ∃ proc' : Proc, s'.procs[q]? = some proc' ∧
    proc'.parent = proc.parent

theorem Keeps.trans {s'' : State} (h : Keeps s s') (h' : Keeps s' s'') : Keeps s s'' := by
  intro q proc hq
  obtain ⟨proc', hq', hparent⟩ := h q proc hq
  obtain ⟨proc'', hq'', hparent'⟩ := h' q proc' hq'
  exact ⟨proc'', hq'', hparent'.trans hparent⟩

theorem keeps_put (hp : s.procs[p]? = some proc) (hparent : new.parent = proc.parent) : Keeps s (s.put p new) := by
  intro q proc' hq
  by_cases hqp : q = p
  · subst hqp
    rw [hp] at hq
    cases hq
    exact ⟨new, put_self hp, hparent⟩
  · exact ⟨proc', (put_ne hqp).trans hq, rfl⟩

theorem keeps_add (s : State) (new : Proc) : Keeps s (s.add new) := fun _ proc hq => ⟨proc, add_old hq, rfl⟩

theorem Descends.mono (hkeep : Keeps s s') (h : Descends s a q) : Descends s' a q := by
  induction h with
  | refl => exact .refl
  | child _ hq hparent ih =>
    obtain ⟨proc', hq', hparent'⟩ := hkeep _ _ hq
    exact .child ih hq' (hparent'.trans hparent)

end

/-! ### The invariant -/

/-- The end of a pipe that has been made. -/
def File.Below (n : ℕ) : File → Prop
  | .readEnd k | .writeEnd k => k < n
  | _ => True

/-- A shell at the head of its launch loop. -/
structure Head (c : Call) (fds : Table File) : Prop where
  stdin : get fds 0 = some (.inherited 0)
  stdout : get fds 1 = some (.inherited 1)
  cnt : c.cnt = c.commands.length
  pos : 0 < c.cnt
  fit : ∀ command ∈ c.commands, Fit command
  i_le : c.i ≤ c.cnt
  pipes : c.pipes.length = c.i
  first : c.i = 0 → c.inFd = 0
  next : ∀ j k, c.i = j + 1 → c.pipes[j]? = some k → get fds c.inFd = some (.readEnd k)

/-- A shell keeps the read ends of its pipes, which were not there when `Exec` was called. -/
structure Reads (c : Call) (fds : Table File) : Prop where
  held : ∀ k ∈ c.pipes, Holds fds (.readEnd k)
  new : ∀ k ∈ c.pipes, ¬ Holds c.entry (.readEnd k)

/-- It has the write end of the pipe just made in one place only. -/
def Alone (c : Call) (fds : Table File) : Prop :=
  ∀ k fd, c.pipes[c.i]? = some k → get fds fd = some (.writeEnd k) → fd = c.pipefd.2

/-- What a process's descriptors are, by where it is. -/
def Local (fds : Table File) : PC → Prop
  | .getCmd => Home fds
  | .launch c => Head c fds ∧ Reads c fds
  | .fork c | .close c => Stage c fds ∧ Reads c fds ∧ Alone c fds
  | .wait c => Head c fds ∧ Reads c fds ∧ c.i = c.cnt
  | .child c => Stage c fds
  | .exec c inManager outManager _ => Wired c fds ∧ Home (resetStdio (resetStdio fds inManager) outManager)
  | .program | .exited => True

/-- The call of `Exec` that a shell is in. -/
def PC.call : PC → Option Call
  | .launch c | .fork c | .close c | .wait c => some c
  | _ => none

/-- The call that a child was forked in. -/
def PC.runs : PC → Option Call
  | .child c | .exec c _ _ _ => some c
  | _ => none

/-- The process holds the write end of a pipe that it has made for somebody else. -/
def PC.Makes (k : ℕ) : PC → Prop
  | .fork c | .close c => c.pipes[c.i]? = some k
  | _ => False

/-- And has not forked that process yet. -/
def PC.Forks (k : ℕ) : PC → Prop
  | .fork c => c.pipes[c.i]? = some k
  | _ => False

/-- Nobody holds the write end of the pipe but its owner and those it has forked. -/
def Owned (s : State) (q : Pid) (k : ℕ) : Prop := ∃ a, s.owner k = some a ∧ Descends s a q

/-- The owner of the pipe is a child of `p`. -/
def Launched (s : State) (p : Pid) (k : ℕ) : Prop :=
  ∃ a child, s.owner k = some a ∧ s.procs[a]? = some child ∧ child.parent = some p

/-- What every step preserves. -/
structure Inv (s : State) : Prop where
  older : ∀ (p q : Pid) (proc : Proc), s.procs[q]? = some proc → proc.parent = some p → p < q
  locals : ∀ (p : Pid) (proc : Proc), s.procs[p]? = some proc → Local proc.fds proc.pc
  below : ∀ (p : Pid) (proc : Proc) (f : File), s.procs[p]? = some proc → Holds proc.fds f → f.Below s.pipes
  entries : ∀ (p : Pid) (proc : Proc) (c : Call) (f : File), s.procs[p]? = some proc → proc.pc.call = some c →
    Holds c.entry f → f.Below s.pipes
  owned : ∀ (q : Pid) (proc : Proc) (k : ℕ), s.procs[q]? = some proc → Holds proc.fds (.writeEnd k) →
    Owned s q k ∨ proc.pc.Makes k
  makers : ∀ (p q : Pid) (proc proc' : Proc) (c : Call) (k : ℕ), s.procs[p]? = some proc → s.procs[q]? = some proc' →
    proc.pc.call = some c → k ∈ c.pipes → proc'.pc.Makes k → p = q
  forks : ∀ (p : Pid) (proc : Proc) (k : ℕ), s.procs[p]? = some proc → proc.pc.Forks k → s.owner k = none
  owners : ∀ k, s.pipes ≤ k → s.owner k = none
  launched : ∀ (p : Pid) (proc : Proc) (c : Call) (k : ℕ), s.procs[p]? = some proc → proc.pc.call = some c →
    k ∈ c.pipes → ¬ proc.pc.Forks k → Launched s p k
  runners : ∀ (p : Pid) (proc : Proc) (c : Call) (k : ℕ), s.procs[p]? = some proc → proc.pc.runs = some c →
    c.pipes[c.i]? = some k → s.owner k = some p

section

variable {s s' : State} {p q : Pid} {proc new : Proc} {k : ℕ}

/-- No pipe's end. -/
def File.Plain : File → Prop
  | .readEnd _ | .writeEnd _ => False
  | _ => True

theorem File.Plain.below {f : File} (h : f.Plain) (n : ℕ) : f.Below n := by
  cases f <;> first | exact trivial | exact absurd h id

theorem File.IsOpened.plain {f : File} (h : f.IsOpened) : f.Plain := by
  obtain ⟨mode, path, rfl⟩ := h
  exact trivial

theorem PC.Forks.makes {pc : PC} (h : pc.Forks k) : pc.Makes k := by
  cases pc <;> first | exact h | exact absurd h id

theorem PC.Makes.call {pc : PC} (h : pc.Makes k) : ∃ c, pc.call = some c ∧ k ∈ c.pipes := by
  cases pc with
  | fork c => exact ⟨c, rfl, List.mem_of_getElem? h⟩
  | close c => exact ⟨c, rfl, List.mem_of_getElem? h⟩
  | _ => exact absurd h id

theorem Owned.mono (hkeep : Keeps s s') (howner : s'.owner k = s.owner k) (h : Owned s q k) : Owned s' q k := by
  obtain ⟨a, ha, hd⟩ := h
  exact ⟨a, by rw [howner, ha], hd.mono hkeep⟩

theorem Launched.mono (hkeep : Keeps s s') (howner : s'.owner k = s.owner k) (h : Launched s p k) : Launched s' p k := by
  obtain ⟨a, child, ha, hchild, hparent⟩ := h
  obtain ⟨child', hchild', hparent'⟩ := hkeep a child hchild
  exact ⟨a, child', by rw [howner, ha], hchild', hparent'.trans hparent⟩

/-- Most steps change one process, add no pipe end to its descriptors and leave it with the call it is in, or put it
into a new one. -/
structure Moves (proc new : Proc) : Prop where
  parent : new.parent = proc.parent
  here : Local new.fds new.pc
  files : Sub File.Plain proc.fds new.fds
  call : ∀ c, new.pc.call = some c → c.entry = proc.fds ∧ c.pipes = [] ∨
    ∃ c', proc.pc.call = some c' ∧ c.entry = c'.entry ∧ c.pipes = c'.pipes
  runs : ∀ c, new.pc.runs = some c → proc.pc.runs = some c
  makes : ∀ k, new.pc.Makes k → proc.pc.Makes k
  forks : ∀ k, ¬ proc.pc.Forks k ∧ ¬ new.pc.Forks k
  gives : ∀ k, Holds new.fds (.writeEnd k) → proc.pc.Makes k → new.pc.Makes k

theorem Inv.moves (h : Inv s) (hp : s.procs[p]? = some proc) (hm : Moves proc new) : Inv (s.put p new) := by
  have hkeep : Keeps s (s.put p new) := keeps_put hp hm.parent
  refine ⟨?_, ?_, ?_, ?_, ?_, ?_, ?_, h.owners, ?_, ?_⟩
  · intro q q' proc' hq hparent
    rcases put_cases hq with ⟨rfl, rfl⟩ | ⟨-, hq⟩
    · exact h.older q _ proc hp (hm.parent.symm.trans hparent)
    · exact h.older q q' proc' hq hparent
  · intro q proc' hq
    rcases put_cases hq with ⟨rfl, rfl⟩ | ⟨-, hq⟩
    · exact hm.here
    · exact h.locals q proc' hq
  · intro q proc' f hq hf
    rcases put_cases hq with ⟨rfl, rfl⟩ | ⟨-, hq⟩
    · rcases hm.files f hf with hplain | hf
      · exact hplain.below _
      · exact h.below q proc f hp hf
    · exact h.below q proc' f hq hf
  · intro q proc' c f hq hc hf
    rcases put_cases hq with ⟨rfl, rfl⟩ | ⟨-, hq⟩
    · rcases hm.call c hc with ⟨hentry, -⟩ | ⟨c', hc', hentry, -⟩
      · exact h.below q proc f hp (hentry ▸ hf)
      · exact h.entries q proc c' f hp hc' (hentry ▸ hf)
    · exact h.entries q proc' c f hq hc hf
  · intro q proc' k hq hk
    rcases put_cases hq with ⟨rfl, rfl⟩ | ⟨-, hq⟩
    · rcases hm.files _ hk with hplain | hold
      · exact absurd hplain id
      · exact (h.owned q proc k hp hold).imp (Owned.mono hkeep rfl) (hm.gives k hk)
    · exact (h.owned q proc' k hq hk).imp_left (Owned.mono hkeep rfl)
  · intro q q' proc₁ proc₂ c k hq hq' hc hk hmake
    have hmake : ∃ old : Proc, s.procs[q']? = some old ∧ old.pc.Makes k := by
      rcases put_cases hq' with ⟨rfl, rfl⟩ | ⟨-, hold'⟩
      · exact ⟨proc, hp, hm.makes k hmake⟩
      · exact ⟨proc₂, hold', hmake⟩
    obtain ⟨old, hold', hmake⟩ := hmake
    rcases put_cases hq with ⟨rfl, rfl⟩ | ⟨-, hold⟩
    · rcases hm.call c hc with ⟨-, hpipes⟩ | ⟨c', hc', -, hpipes⟩
      · rw [hpipes] at hk
        exact absurd hk List.not_mem_nil
      · exact h.makers _ _ proc old c' k hp hold' hc' (hpipes ▸ hk) hmake
    · exact h.makers _ _ proc₁ old c k hold hold' hc hk hmake
  · intro q proc' k hq hk
    rcases put_cases hq with ⟨rfl, rfl⟩ | ⟨-, hq⟩
    · exact absurd hk (hm.forks k).2
    · exact h.forks q proc' k hq hk
  · intro q proc' c k hq hc hk hnf
    rcases put_cases hq with ⟨rfl, rfl⟩ | ⟨-, hq⟩
    · rcases hm.call c hc with ⟨-, hpipes⟩ | ⟨c', hc', -, hpipes⟩
      · rw [hpipes] at hk
        exact absurd hk List.not_mem_nil
      · exact (h.launched q proc c' k hp hc' (hpipes ▸ hk) (hm.forks k).1).mono hkeep rfl
    · exact (h.launched q proc' c k hq hc hk hnf).mono hkeep rfl
  · intro q proc' c k hq hc hk
    rcases put_cases hq with ⟨rfl, rfl⟩ | ⟨-, hq⟩
    · exact h.runners q proc c k hp (hm.runs c hc) hk
    · exact h.runners q proc' c k hq hc hk

/-- A program forks. -/
theorem Inv.copied (h : Inv s) (hp : s.procs[p]? = some proc) (hpc : proc.pc = .program) :
    Inv (s.add { proc with parent := some p }) := by
  have hkeep := keeps_add s { proc with parent := some p }
  refine ⟨?_, ?_, ?_, ?_, ?_, ?_, ?_, h.owners, ?_, ?_⟩
  · intro q q' proc' hq hparent
    rcases add_cases hq with ⟨rfl, rfl⟩ | hq
    · obtain rfl := Option.some.inj hparent
      exact (List.getElem?_eq_some_iff.mp hp).1
    · exact h.older q q' proc' hq hparent
  · intro q proc' hq
    rcases add_cases hq with ⟨rfl, rfl⟩ | hq
    · exact h.locals p proc hp
    · exact h.locals q proc' hq
  · intro q proc' f hq hf
    rcases add_cases hq with ⟨rfl, rfl⟩ | hq
    · exact h.below p proc f hp hf
    · exact h.below q proc' f hq hf
  · intro q proc' c f hq hc hf
    rcases add_cases hq with ⟨rfl, rfl⟩ | hq
    · exact h.entries p proc c f hp hc hf
    · exact h.entries q proc' c f hq hc hf
  · intro q proc' k hq hk
    rcases add_cases hq with ⟨rfl, rfl⟩ | hq
    · refine (h.owned p proc k hp hk).imp_left fun howned => ?_
      obtain ⟨a, ha, hd⟩ := howned
      exact ⟨a, ha, .child (hd.mono hkeep) (add_new s _) rfl⟩
    · exact (h.owned q proc' k hq hk).imp_left (Owned.mono hkeep rfl)
  · intro q q' proc₁ proc₂ c k hq hq' hc hk hmake
    rcases add_cases hq with ⟨rfl, rfl⟩ | hq
    · rw [hpc] at hc
      exact absurd hc nofun
    · rcases add_cases hq' with ⟨rfl, rfl⟩ | hq'
      · rw [hpc] at hmake
        exact absurd hmake id
      · exact h.makers _ _ proc₁ proc₂ c k hq hq' hc hk hmake
  · intro q proc' k hq hk
    rcases add_cases hq with ⟨rfl, rfl⟩ | hq
    · exact absurd hk (by rw [hpc]; exact id)
    · exact h.forks q proc' k hq hk
  · intro q proc' c k hq hc hk hnf
    rcases add_cases hq with ⟨rfl, rfl⟩ | hq
    · rw [hpc] at hc
      exact absurd hc nofun
    · exact (h.launched q proc' c k hq hc hk hnf).mono hkeep rfl
  · intro q proc' c k hq hc hk
    rcases add_cases hq with ⟨rfl, rfl⟩ | hq
    · rw [hpc] at hc
      exact absurd hc nofun
    · exact h.runners q proc' c k hq hc hk

theorem File.Below.mono {f : File} {m n : ℕ} (h : f.Below m) (hle : m ≤ n) : f.Below n := by
  cases f <;> first | exact trivial | exact lt_of_lt_of_le h hle

variable {c : Call}

theorem Inv.makes_lt (h : Inv s) (hp : s.procs[p]? = some proc) (hk : proc.pc.Makes k) : k < s.pipes := by
  have hlocal := h.locals p proc hp
  have hstage : ∃ c, Stage c proc.fds ∧ c.pipes[c.i]? = some k := by
    cases hpc : proc.pc with
    | fork c | close c =>
      rw [hpc] at hlocal hk
      exact ⟨c, hlocal.1, hk⟩
    | _ =>
      rw [hpc] at hk
      exact absurd hk id
  obtain ⟨c, hstage, hk⟩ := hstage
  exact h.below p proc (.writeEnd k) hp ⟨_, hstage.write k hk⟩

theorem Inv.pipe_lt (h : Inv s) (hp : s.procs[p]? = some proc) (hc : proc.pc.call = some c) (hk : k ∈ c.pipes) :
    k < s.pipes := by
  have hlocal := h.locals p proc hp
  have hreads : Reads c proc.fds := by
    cases hpc : proc.pc with
    | launch c =>
      rw [hpc] at hlocal hc
      cases hc
      exact hlocal.2
    | fork c | close c | wait c =>
      rw [hpc] at hlocal hc
      cases hc
      exact hlocal.2.1
    | _ =>
      rw [hpc] at hc
      exact absurd hc nofun
  exact h.below p proc (.readEnd k) hp (hreads.held k hk)

/-- The call with the pipe `k` just made. -/
def Call.piped (c : Call) (k r w : ℕ) : Call := { c with pipefd := (r, w), pipes := c.pipes ++ [k] }

/-- The state behind a shell's `pipe`. -/
def State.piped (s : State) (p : Pid) (proc : Proc) (c : Call) : State :=
  { s.put p { proc with
      fds := (alloc (alloc proc.fds (.readEnd s.pipes)).1 (.writeEnd s.pipes)).1
      pc := .fork (c.piped s.pipes (alloc proc.fds (.readEnd s.pipes)).2
        (alloc (alloc proc.fds (.readEnd s.pipes)).1 (.writeEnd s.pipes)).2) } with pipes := s.pipes + 1 }

/-- And behind its `fork`. -/
def State.forked (s : State) (p : Pid) (proc : Proc) (c : Call) : State :=
  { (s.put p { proc with pc := .close c }).add { proc with parent := some p, pc := .child c } with
    owner := fun k => if c.pipes[c.i]? = some k then some s.procs.length else s.owner k }

/-- `pipe` gives a shell two descriptors of its own. -/
theorem local_piped {fds : Table File} (hhead : Head c fds) (hreads : Reads c fds) (hlt : c.i < c.cnt)
    (hnew : ¬ Holds fds (.writeEnd k)) (hentry : ¬ Holds c.entry (.readEnd k)) :
    Local (alloc (alloc fds (.readEnd k)).1 (.writeEnd k)).1
      (.fork (c.piped k (alloc fds (.readEnd k)).2 (alloc (alloc fds (.readEnd k)).1 (.writeEnd k)).2)) := by
  have hkeep : ∀ {fd f}, get fds fd = some f → get (alloc (alloc fds (.readEnd k)).1 (.writeEnd k)).1 fd = some f :=
    fun h => get_alloc (get_alloc h)
  have hlast : ∀ {j l}, (c.pipes ++ [k])[c.i]? = some l → j = c.i → l = k := fun {j l} h _ => by
    rw [← hhead.pipes, List.getElem?_append_right le_rfl, Nat.sub_self] at h
    exact (Option.some.inj h).symm
  have hread : get (alloc (alloc fds (.readEnd k)).1 (.writeEnd k)).1 (alloc fds (.readEnd k)).2 = some (.readEnd k) :=
    get_alloc (get_alloc_self fds _)
  refine ⟨⟨hkeep hhead.stdin, hkeep hhead.stdout, hhead.cnt, hhead.fit, hlt, ?_, fun l hl => ?_, fun l hl => ?_,
    hhead.first, fun j l hj hl => ?_⟩, ⟨fun l hl => ?_, fun l hl => ?_⟩, fun l fd hl hfd => ?_⟩
  · show (c.pipes ++ [k]).length = c.i + 1
    rw [List.length_append, hhead.pipes]
    rfl
  · rw [hlast hl rfl]
    exact hread
  · rw [hlast hl rfl]
    exact get_alloc_self _ _
  · have hl : (c.pipes ++ [k])[j]? = some l := hl
    have hj : c.i = j + 1 := hj
    rw [List.getElem?_append_left (by rw [hhead.pipes, hj]; exact Nat.lt_succ_self j)] at hl
    exact hkeep (hhead.next j l hj hl)
  · rcases List.mem_append.mp hl with hl | hl
    · obtain ⟨fd, hfd⟩ := hreads.held l hl
      exact ⟨fd, hkeep hfd⟩
    · rw [List.mem_singleton.mp hl]
      exact ⟨_, hread⟩
  · rcases List.mem_append.mp hl with hl | hl
    · exact hreads.new l hl
    · rw [List.mem_singleton.mp hl]
      exact hentry
  · rw [hlast hl rfl] at hfd
    by_contra hne
    have hfd := (get_alloc_ne hne).symm.trans hfd
    by_cases hr : fd = (alloc fds (.readEnd k)).2
    · rw [hr, get_alloc_self] at hfd
      exact absurd hfd nofun
    · exact hnew ⟨fd, (get_alloc_ne hr).symm.trans hfd⟩

theorem holds_alloc {fds : Table File} {f g : File} (h : Holds (alloc fds f).1 g) : g = f ∨ Holds fds g := by
  rcases Sub.put (N := fun x => x = f) (Or.inl rfl) (lowest fds) g h with h | h
  · exact Or.inl h
  · exact Or.inr h

theorem Inv.piped (h : Inv s) (hp : s.procs[p]? = some proc) (hpc : proc.pc = .launch c) (hlt : c.i < c.cnt) :
    Inv (s.piped p proc c) := by
  unfold State.piped
  generalize hproc : ({ proc with
      fds := (alloc (alloc proc.fds (.readEnd s.pipes)).1 (.writeEnd s.pipes)).1
      pc := .fork (c.piped s.pipes (alloc proc.fds (.readEnd s.pipes)).2
        (alloc (alloc proc.fds (.readEnd s.pipes)).1 (.writeEnd s.pipes)).2) } : Proc) = new
  have hparent : new.parent = proc.parent := by rw [← hproc]
  have hfds : new.fds = (alloc (alloc proc.fds (.readEnd s.pipes)).1 (.writeEnd s.pipes)).1 := by rw [← hproc]
  have hnpc : new.pc = .fork (c.piped s.pipes (alloc proc.fds (.readEnd s.pipes)).2
        (alloc (alloc proc.fds (.readEnd s.pipes)).1 (.writeEnd s.pipes)).2) := by rw [← hproc]
  have hlocal := h.locals p proc hp
  rw [hpc] at hlocal
  have hnew : ¬ Holds proc.fds (.writeEnd s.pipes) := fun hn => absurd (h.below p proc _ hp hn) (lt_irrefl s.pipes)
  have hentry : ¬ Holds c.entry (.readEnd s.pipes) := fun hn =>
    absurd (h.entries p proc c _ hp (by rw [hpc]; rfl) hn) (lt_irrefl s.pipes)
  have hkeep : Keeps s { s.put p new with pipes := s.pipes + 1 } := keeps_put hp hparent
  have hcall : new.pc.call = some (c.piped s.pipes (alloc proc.fds (.readEnd s.pipes)).2
        (alloc (alloc proc.fds (.readEnd s.pipes)).1 (.writeEnd s.pipes)).2) := by rw [hnpc]; rfl
  have hforks : ∀ k, new.pc.Forks k ↔ (c.pipes ++ [s.pipes])[c.i]? = some k := fun k => by rw [hnpc]; exact Iff.rfl
  have hlast : (c.pipes ++ [s.pipes])[c.i]? = some s.pipes := by
    rw [← hlocal.1.pipes, List.getElem?_append_right le_rfl, Nat.sub_self]
    rfl
  have hmakes : ∀ k, new.pc.Makes k → k = s.pipes := fun k hk => by
    rw [hnpc] at hk
    exact Option.some.inj (hk.symm.trans hlast)
  refine ⟨?_, ?_, ?_, ?_, ?_, ?_, ?_, fun k hk => h.owners k (Nat.le_of_succ_le hk), ?_, ?_⟩
  · intro q q' proc' hq hback
    rcases put_cases hq with ⟨rfl, rfl⟩ | ⟨-, hq⟩
    · exact h.older q _ proc hp (hparent.symm.trans hback)
    · exact h.older q q' proc' hq hback
  · intro q proc' hq
    rcases put_cases hq with ⟨rfl, rfl⟩ | ⟨-, hq⟩
    · rw [hfds, hnpc]
      exact local_piped hlocal.1 hlocal.2 hlt hnew hentry
    · exact h.locals q proc' hq
  · intro q proc' f hq hf
    rcases put_cases hq with ⟨rfl, rfl⟩ | ⟨-, hq⟩
    · rw [hfds] at hf
      rcases holds_alloc hf with rfl | hf
      · exact Nat.lt_succ_self _
      · rcases holds_alloc hf with rfl | hf
        · exact Nat.lt_succ_self _
        · exact (h.below q proc f hp hf).mono (Nat.le_succ _)
    · exact (h.below q proc' f hq hf).mono (Nat.le_succ _)
  · intro q proc' c' f hq hc hf
    rcases put_cases hq with ⟨rfl, rfl⟩ | ⟨-, hq⟩
    · rw [hcall] at hc
      cases hc
      exact (h.entries q proc c f hp (by rw [hpc]; rfl) hf).mono (Nat.le_succ _)
    · exact (h.entries q proc' c' f hq hc hf).mono (Nat.le_succ _)
  · intro q proc' k hq hk
    rcases put_cases hq with ⟨rfl, rfl⟩ | ⟨-, hq⟩
    · rw [hfds] at hk
      rcases holds_alloc hk with heq | hk
      · cases heq
        exact Or.inr ((hforks _).mpr hlast).makes
      · rcases holds_alloc hk with heq | hk
        · exact absurd heq nofun
        · refine ((h.owned q proc k hp hk).imp_left (Owned.mono hkeep rfl)).imp_right fun hn => ?_
          rw [hpc] at hn
          exact absurd hn id
    · exact (h.owned q proc' k hq hk).imp_left (Owned.mono hkeep rfl)
  · intro q q' proc₁ proc₂ c' k hq hq' hc hk hmake
    rcases put_cases hq with ⟨rfl, rfl⟩ | ⟨-, hold⟩ <;> rcases put_cases hq' with ⟨rfl, rfl⟩ | ⟨-, hold'⟩
    · rfl
    · rw [hcall] at hc
      cases hc
      rcases List.mem_append.mp hk with hk | hk
      · exact h.makers _ _ proc proc₂ c k hp hold' (by rw [hpc]; rfl) hk hmake
      · rw [List.mem_singleton.mp hk] at hmake
        exact absurd (h.makes_lt hold' hmake) (lt_irrefl _)
    · rw [hmakes k hmake] at hk
      exact absurd (h.pipe_lt hold hc hk) (lt_irrefl _)
    · exact h.makers _ _ proc₁ proc₂ c' k hold hold' hc hk hmake
  · intro q proc' k hq hk
    rcases put_cases hq with ⟨rfl, rfl⟩ | ⟨-, hq⟩
    · rw [hmakes k hk.makes]
      exact h.owners s.pipes le_rfl
    · exact h.forks q proc' k hq hk
  · intro q proc' c' k hq hc hk hnf
    rcases put_cases hq with ⟨rfl, rfl⟩ | ⟨-, hq⟩
    · rw [hcall] at hc
      cases hc
      rcases List.mem_append.mp hk with hk | hk
      · exact (h.launched q proc c k hp (by rw [hpc]; rfl) hk (by rw [hpc]; exact id)).mono hkeep rfl
      · rw [List.mem_singleton.mp hk] at hnf
        exact absurd ((hforks _).mpr hlast) hnf
    · exact (h.launched q proc' c' k hq hc hk hnf).mono hkeep rfl
  · intro q proc' c' k hq hc hk
    rcases put_cases hq with ⟨rfl, rfl⟩ | ⟨-, hq⟩
    · rw [hnpc] at hc
      exact absurd hc nofun
    · exact h.runners q proc' c' k hq hc hk

/-- A shell forks the child for a command, which becomes the owner of the pipe. -/
theorem Inv.forked (h : Inv s) (hp : s.procs[p]? = some proc) (hpc : proc.pc = .fork c) :
    Inv (s.forked p proc c) := by
  have hlocal := h.locals p proc hp
  rw [hpc] at hlocal
  have hmakes : ∀ {k}, proc.pc.Makes k ↔ c.pipes[c.i]? = some k := fun {k} => by rw [hpc]; exact Iff.rfl
  have hlen : (s.put p { proc with pc := .close c }).procs.length = s.procs.length := List.length_set
  have hkeep₀ : Keeps s (s.put p { proc with pc := .close c }) := keeps_put hp rfl
  have hkeep : Keeps s ((s.put p { proc with pc := .close c }).add { proc with parent := some p, pc := .child c }) :=
    hkeep₀.trans (keeps_add _ _)
  have hchild : (s.forked p proc c).procs[s.procs.length]? =
      some { proc with parent := some p, pc := .child c } := hlen ▸ add_new _ _
  -- a pipe with an owner is not the one that the shell has just made
  have howner : ∀ {k a}, s.owner k = some a → (s.forked p proc c).owner k = s.owner k :=
    fun {k a} ha => if_neg fun hn => by
      rw [h.forks p proc k hp (by rw [hpc]; exact hn)] at ha
      exact absurd ha nofun
  refine ⟨?_, ?_, ?_, ?_, ?_, ?_, ?_, ?_, ?_, ?_⟩
  · intro q q' proc' hq hparent
    rcases add_cases hq with ⟨rfl, rfl⟩ | hq
    · obtain rfl := Option.some.inj hparent
      exact hlen.symm ▸ (List.getElem?_eq_some_iff.mp hp).1
    · rcases put_cases hq with ⟨rfl, rfl⟩ | ⟨-, hq⟩
      · exact h.older q _ proc hp hparent
      · exact h.older q q' proc' hq hparent
  · intro q proc' hq
    rcases add_cases hq with ⟨rfl, rfl⟩ | hq
    · exact hlocal.1
    · rcases put_cases hq with ⟨rfl, rfl⟩ | ⟨-, hq⟩
      · exact hlocal
      · exact h.locals q proc' hq
  · intro q proc' f hq hf
    rcases add_cases hq with ⟨rfl, rfl⟩ | hq
    · exact h.below p proc f hp hf
    · rcases put_cases hq with ⟨rfl, rfl⟩ | ⟨-, hq⟩
      · exact h.below q proc f hp hf
      · exact h.below q proc' f hq hf
  · intro q proc' c' f hq hc hf
    rcases add_cases hq with ⟨rfl, rfl⟩ | hq
    · exact absurd hc nofun
    · rcases put_cases hq with ⟨rfl, rfl⟩ | ⟨-, hq⟩
      · cases hc
        exact h.entries q proc c f hp (by rw [hpc]; rfl) hf
      · exact h.entries q proc' c' f hq hc hf
  · intro q proc' k hq hk
    have hold : ∀ {q}, Owned s q k → Owned (s.forked p proc c) q k := by
      rintro q ⟨a, ha, hd⟩
      exact ⟨a, (howner ha).trans ha, hd.mono hkeep⟩
    rcases add_cases hq with ⟨rfl, rfl⟩ | hq
    · refine Or.inl ?_
      rcases h.owned p proc k hp hk with howned | hm
      · obtain ⟨a, ha, hd⟩ := hold howned
        exact ⟨a, ha, .child hd (hlen ▸ hchild) rfl⟩
      · exact ⟨s.procs.length, if_pos (hmakes.mp hm), hlen ▸ .refl⟩
    · rcases put_cases hq with ⟨rfl, rfl⟩ | ⟨-, hq⟩
      · exact (h.owned q proc k hp hk).imp hold hmakes.mp
      · exact (h.owned q proc' k hq hk).imp_left hold
  · intro q q' proc₁ proc₂ c' k hq hq' hc hk hmake
    have hmake : ∃ old : Proc, s.procs[q']? = some old ∧ old.pc.Makes k := by
      rcases add_cases hq' with ⟨rfl, rfl⟩ | hq'
      · exact absurd hmake id
      · rcases put_cases hq' with ⟨rfl, rfl⟩ | ⟨-, hq'⟩
        · exact ⟨proc, hp, hmakes.mpr hmake⟩
        · exact ⟨proc₂, hq', hmake⟩
    obtain ⟨old, hold', hmake⟩ := hmake
    rcases add_cases hq with ⟨rfl, rfl⟩ | hq
    · exact absurd hc nofun
    · rcases put_cases hq with ⟨rfl, rfl⟩ | ⟨-, hq⟩
      · cases hc
        exact h.makers _ _ proc old c k hp hold' (by rw [hpc]; rfl) hk hmake
      · exact h.makers _ _ proc₁ old c' k hq hold' hc hk hmake
  · intro q proc' k hq hk
    rcases add_cases hq with ⟨rfl, rfl⟩ | hq
    · exact absurd hk id
    · rcases put_cases hq with ⟨rfl, rfl⟩ | ⟨hqp, hq⟩
      · exact absurd hk id
      · have hne : ¬ c.pipes[c.i]? = some k := fun hn => by
          obtain ⟨c', hc', hmem⟩ := hk.makes.call
          exact hqp (h.makers q p proc' proc c' k hq hp hc' hmem (hmakes.mpr hn))
        exact (if_neg hne).trans (h.forks q proc' k hq hk)
  · intro k hk
    have hne : ¬ c.pipes[c.i]? = some k := fun hn => absurd (h.makes_lt hp (hmakes.mpr hn)) (not_lt.mpr hk)
    exact (if_neg hne).trans (h.owners k hk)
  · intro q proc' c' k hq hc hk hnf
    have hold : ∀ {q}, Launched s q k → Launched (s.forked p proc c) q k := fun hl => by
      obtain ⟨a, -, ha, -, -⟩ := id hl
      exact hl.mono hkeep (howner ha)
    rcases add_cases hq with ⟨rfl, rfl⟩ | hq
    · exact absurd hc nofun
    · rcases put_cases hq with ⟨rfl, rfl⟩ | ⟨-, hq⟩
      · cases hc
        by_cases hcur : c.pipes[c.i]? = some k
        · exact ⟨s.procs.length, _, if_pos hcur, hchild, rfl⟩
        · exact hold (h.launched q proc c k hp (by rw [hpc]; rfl) hk (by rw [hpc]; exact hcur))
      · exact hold (h.launched q proc' c' k hq hc hk hnf)
  · intro q proc' c' k hq hc hk
    rcases add_cases hq with ⟨rfl, rfl⟩ | hq
    · cases hc
      exact (if_pos hk).trans (congrArg some hlen.symm)
    · rcases put_cases hq with ⟨rfl, rfl⟩ | ⟨-, hq⟩
      · exact absurd hc nofun
      · have hown := h.runners q proc' c' k hq hc hk
        exact (howner hown).trans hown

end

/-! ### Steps -/

/-- All that a step can do. -/
inductive Stepped (s : State) : State → Prop
  | same : Stepped s s
  | moves {p : Pid} {proc new : Proc} : s.procs[p]? = some proc → Moves proc new → Stepped s (s.put p new)
  | copied {p : Pid} {proc : Proc} : s.procs[p]? = some proc → proc.pc = .program →
      Stepped s (s.add { proc with parent := some p })
  | piped {p : Pid} {proc : Proc} {c : Call} : s.procs[p]? = some proc → proc.pc = .launch c → c.i < c.cnt →
      Stepped s (s.piped p proc c)
  | forked {p : Pid} {proc : Proc} {c : Call} : s.procs[p]? = some proc → proc.pc = .fork c →
      Stepped s (s.forked p proc c)

section

variable {s s' : State} {p : Pid} {proc new : Proc} {c : Call}

/-- A step of a process that makes no pipe. -/
theorem Moves.quiet (hmakes : ∀ k, ¬ proc.pc.Makes k) (hmakes' : ∀ k, ¬ new.pc.Makes k)
    (hparent : new.parent = proc.parent) (hhere : Local new.fds new.pc) (hfiles : Sub File.Plain proc.fds new.fds)
    (hcall : ∀ c, new.pc.call = some c → c.entry = proc.fds ∧ c.pipes = [] ∨
      ∃ c', proc.pc.call = some c' ∧ c.entry = c'.entry ∧ c.pipes = c'.pipes)
    (hruns : ∀ c, new.pc.runs = some c → proc.pc.runs = some c) : Moves proc new :=
  ⟨hparent, hhere, hfiles, hcall, hruns, fun k hk => absurd hk (hmakes' k),
    fun k => ⟨fun hk => hmakes k hk.makes, fun hk => hmakes' k hk.makes⟩, fun k _ hk => absurd hk (hmakes k)⟩

/-- A step that ends outside `Exec` and before no `execvp`. -/
theorem Moves.idle (hmakes : ∀ k, ¬ proc.pc.Makes k) (hparent : new.parent = proc.parent) (hhere : Local new.fds new.pc)
    (hfiles : Sub File.Plain proc.fds new.fds) (hcall : new.pc.call = none) (hruns : new.pc.runs = none) :
    Moves proc new := by
  refine Moves.quiet hmakes (fun k hk => ?_) hparent hhere hfiles (fun c hc => ?_) fun c hc => ?_
  · obtain ⟨c, hc, -⟩ := hk.call
    exact Option.some_ne_none c (hc.symm.trans hcall)
  · exact absurd (hc.symm.trans hcall) (Option.some_ne_none c)
  · exact absurd (hc.symm.trans hruns) (Option.some_ne_none c)

theorem line_cases (hp : s.procs[p]? = some proc) (hlocal : Local proc.fds proc.pc) (text : List Char) :
    Sat (Stepped s) (· = .refused) (stepProc s p proc (.line p text)) := by
  simp only [stepProc]
  split_ifs with hready
  · obtain ⟨hpc, hopen⟩ := hready
    obtain ⟨out, hout, -⟩ := exec_eq (tokenizerInit text) rfl
    cases out with
    | launch commands cnt =>
      obtain ⟨hcnt, hpos, hfit⟩ := fit_of_launch hout
      rw [hpc] at hlocal
      have hstdin := hlocal.stdin.resolve_right fun hn => by
        rw [hn] at hopen
        cases hopen
      have hhead : Head ⟨commands, cnt, 0, 0, (0, 0), [], proc.fds⟩ proc.fds :=
        ⟨hstdin, hlocal.stdout, hcnt, hpos, hfit, Nat.zero_le _, rfl, fun _ => rfl,
          fun j _ hj => absurd hj.symm (Nat.succ_ne_zero j)⟩
      rw [hout]
      refine .moves hp (Moves.quiet (by rw [hpc]; exact fun _ => id) (fun _ => id) rfl
        ⟨hhead, fun _ hk => absurd hk List.not_mem_nil, fun _ hk => absurd hk List.not_mem_nil⟩ (Sub.refl _)
        (fun c hc => Or.inl ?_) fun c hc => absurd hc.symm (Option.some_ne_none c))
      obtain rfl := Option.some.inj hc
      exact ⟨rfl, rfl⟩
    | nothing =>
      rw [hout]
      exact .same
    | syntaxError =>
      rw [hout]
      exact .same
  · exact rfl

/-- `close` leaves the shell with no write end of the pipe. -/
theorem moves_close (hlocal : Local proc.fds (.close c)) (hpc : proc.pc = .close c) :
    Moves proc { proc with
      fds := Fds.close proc.fds c.pipefd.2
      pc := .launch { c with i := c.i + 1, inFd := c.pipefd.1 } } := by
  obtain ⟨hstage, hreads, halone⟩ := hlocal
  obtain ⟨k, hk⟩ := hstage.current
  have hw := hstage.write k hk
  have hread : ∀ {fd f}, f ≠ .writeEnd k → get proc.fds fd = some f →
      get (Fds.close proc.fds c.pipefd.2) fd = some f := fun hne hfd => by
    rw [get_close_ne (ne_of_get hfd hw hne)]
    exact hfd
  have hhead : Head { c with i := c.i + 1, inFd := c.pipefd.1 } (Fds.close proc.fds c.pipefd.2) := by
    refine ⟨hread nofun hstage.stdin, hread nofun hstage.stdout, hstage.cnt, Nat.zero_lt_of_lt hstage.i_lt, hstage.fit,
      hstage.i_lt, hstage.pipes, nofun, fun j l hj hl => hread nofun (hstage.read l ?_)⟩
    obtain rfl : c.i = j := Nat.succ.inj hj
    exact hl
  refine ⟨rfl, ⟨hhead, fun l hl => ?_, hreads.new⟩, Sub.close _ _, fun c' hc' => Or.inr ?_, nofun, fun _ => False.elim,
    fun l => ⟨by rw [hpc]; exact id, id⟩, fun l hl hmake => ?_⟩
  · obtain ⟨fd, hfd⟩ := hreads.held l hl
    exact ⟨fd, hread nofun hfd⟩
  · obtain rfl := Option.some.inj hc'
    exact ⟨c, by rw [hpc]; rfl, rfl, rfl⟩
  · obtain ⟨fd, hfd⟩ := hl
    rw [hpc] at hmake
    by_cases hne : fd = c.pipefd.2
    · rw [hne, get_close_self] at hfd
      exact absurd hfd nofun
    · rw [get_close_ne hne] at hfd
      exact absurd (halone l fd hmake hfd) hne

theorem go_cases (hp : s.procs[p]? = some proc) (hlocal : Local proc.fds proc.pc) :
    Sat (Stepped s) (· = .refused) (go s p proc) := by
  unfold go
  cases hpc : proc.pc with
  | launch c =>
    rw [hpc] at hlocal
    obtain ⟨hhead, hreads⟩ := hlocal
    by_cases hlt : c.i < c.cnt
    · simp only [if_pos hlt]
      exact .piped hp hpc hlt
    · simp only [if_neg hlt]
      refine .moves hp (Moves.quiet (by rw [hpc]; exact fun _ => id) (fun _ => id) rfl
        ⟨hhead, hreads, Nat.le_antisymm hhead.i_le (Nat.le_of_not_lt hlt)⟩ (Sub.refl _) (fun c' hc' => Or.inr ?_)
        fun c hc => absurd hc.symm (Option.some_ne_none c))
      obtain rfl := Option.some.inj hc'
      exact ⟨c, by rw [hpc]; rfl, rfl, rfl⟩
  | fork c => exact .forked hp hpc
  | close c =>
    rw [hpc] at hlocal
    exact .moves hp (moves_close hlocal hpc)
  | wait c =>
    rw [hpc] at hlocal
    simp only
    split_ifs with hchild
    · exact rfl
    · exact .moves hp (Moves.idle (by rw [hpc]; exact fun _ => id) rfl
        ⟨Or.inl hlocal.1.stdin, hlocal.1.stdout⟩ (Sub.refl _) rfl rfl)
  | _ => exact rfl

theorem child_cases (hp : s.procs[p]? = some proc) (hlocal : Local proc.fds proc.pc) (opens : Mode → Text → Bool) :
    Sat (Stepped s) (· = .refused) (stepProc s p proc (.child p opens)) := by
  unfold stepProc
  cases hpc : proc.pc with
  | child c =>
    rw [hpc] at hlocal
    obtain ⟨fds', pc, hredirect, hsub, hchild⟩ := redirect_spec hlocal opens
    simp only [hredirect]
    have hsub := hsub.mono fun _ => File.IsOpened.plain
    have hquiet : ∀ k, ¬ proc.pc.Makes k := by rw [hpc]; exact fun _ => id
    cases hchild with
    | failed _ hhome => exact .moves hp (Moves.idle hquiet rfl hhome hsub rfl rfl)
    | exec _ hwired hhome =>
      exact .moves hp (Moves.quiet hquiet (fun _ => id) rfl ⟨hwired, hhome⟩ hsub
        (fun c hc => absurd hc.symm (Option.some_ne_none c)) (by rw [hpc]; exact fun _ => id))
  | _ => exact rfl

theorem exec_cases (hp : s.procs[p]? = some proc) (hlocal : Local proc.fds proc.pc) (ok : Bool) :
    Sat (Stepped s) (· = .refused) (stepProc s p proc (.exec p ok)) := by
  unfold stepProc
  cases hpc : proc.pc with
  | exec c inManager outManager argv =>
    rw [hpc] at hlocal
    have hquiet : ∀ k, ¬ proc.pc.Makes k := by rw [hpc]; exact fun _ => id
    cases ok with
    | true => exact .moves hp (Moves.idle hquiet rfl trivial (Sub.refl _) rfl rfl)
    | false =>
      have hsub := (resetStdio_sub proc.fds inManager).trans (resetStdio_sub _ outManager)
      exact .moves hp (Moves.idle hquiet rfl hlocal.2 (hsub.mono fun _ => File.IsOpened.plain) rfl rfl)
  | _ => exact rfl

theorem act_cases (hp : s.procs[p]? = some proc) (hpc : proc.pc = .program) (a : Act) : Stepped s (act s p proc a) := by
  have hquiet : ∀ k, ¬ proc.pc.Makes k := by rw [hpc]; exact fun _ => id
  have hmoves : ∀ fds, Sub File.Plain proc.fds fds → Moves proc { proc with fds := fds } := fun fds hsub =>
    Moves.idle hquiet rfl (by rw [hpc]; trivial) hsub (by rw [hpc]; rfl) (by rw [hpc]; rfl)
  cases a with
  | close fd => exact .moves hp (hmoves _ (Sub.close _ _))
  | dup2 old new => exact .moves hp (hmoves _ (Sub.dup2 _ _ _))
  | obtain k => exact .moves hp (hmoves _ (Sub.put (Or.inl trivial) _))
  | fork => exact .copied hp hpc
  | exit => exact .moves hp (Moves.idle hquiet rfl trivial (Sub.nil _) rfl rfl)

theorem step_cases (h : Inv s) (e : Event) : Sat (Stepped s) (· = .refused) (step s e) := by
  unfold step
  cases hp : s.procs[e.pid]? with
  | none => exact rfl
  | some proc =>
    have hlocal := h.locals _ proc hp
    cases e with
    | line p text => exact line_cases hp hlocal text
    | eof p =>
      simp only [stepProc]
      split_ifs with hpc
      · exact .moves hp (Moves.idle (by rw [hpc]; exact fun _ => id) rfl trivial (Sub.nil _) rfl rfl)
      · exact rfl
    | go p => exact go_cases hp hlocal
    | child p opens => exact child_cases hp hlocal opens
    | exec p ok => exact exec_cases hp hlocal ok
    | act p a =>
      simp only [stepProc]
      split_ifs with hpc
      · exact act_cases hp hpc a
      · exact rfl

theorem Stepped.inv (h : Stepped s s') (hinv : Inv s) : Inv s' := by
  cases h with
  | same => exact hinv
  | moves hp hm => exact hinv.moves hp hm
  | copied hp hpc => exact hinv.copied hp hpc
  | piped hp hpc hlt => exact hinv.piped hp hpc hlt
  | forked hp hpc => exact hinv.forked hp hpc

theorem Inv.step (h : Inv s) (e : Event) : Sat Inv (· = .refused) (step s e) :=
  (step_cases h e).mono (fun _ hs => hs.inv h) fun _ => id

theorem inv_init {fds : Table File} (h : Started fds) : Inv (init fds) := by
  have hone : ∀ {q : Pid} {proc : Proc}, (init fds).procs[q]? = some proc → proc = ⟨none, fds, .getCmd⟩ := fun {q proc} hq =>
    List.mem_singleton.mp (List.mem_of_getElem? hq)
  have hplain : ∀ f, Holds fds f → f.Plain := fun f hf => by
    obtain ⟨k, rfl⟩ := h.inherited f hf
    exact trivial
  refine ⟨fun p q proc hq hparent => ?_, fun q proc hq => ?_, fun q proc f hq hf => ?_, fun q proc c f hq hc => ?_,
    fun q proc k hq hk => ?_,
    fun p q proc proc' c k hp _ hc => ?_, fun q proc k hq hk => ?_, fun _ _ => rfl, fun q proc c k hq hc => ?_,
    fun q proc c k hq hc => ?_⟩
  · rw [hone hq] at hparent
    exact absurd hparent nofun
  · rw [hone hq]
    exact ⟨Or.inl h.stdin, h.stdout⟩
  · rw [hone hq] at hf
    exact (hplain f hf).below _
  · rw [hone hq] at hc
    exact absurd hc nofun
  · rw [hone hq] at hk
    exact absurd (hplain _ hk) id
  · rw [hone hp] at hc
    exact absurd hc nofun
  · rfl
  · rw [hone hq] at hc
    exact absurd hc nofun
  · rw [hone hq] at hc
    exact absurd hc nofun

theorem inv_of_run {fds : Table File} (h : Started fds) (es : List Event) :
    Sat Inv (· = .refused) (run step (init fds) es) :=
  run_sat (fun s e hs _ => Inv.step (s := s) hs e) es (inv_init h) (along_true es _)

end

end Pipe
end Bash
end OsLabs
