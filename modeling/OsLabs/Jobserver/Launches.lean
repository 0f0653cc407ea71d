/-
# What the jobserver launches

Every process has a part of the tree to traverse or a program to launch, and passes it on when it forks: what is
launched and what is still to be launched are together the programs of the tree, and in the same way for the processes
that are created. The one step that breaks this is a `chdir` that is refused: nobody looks at its result, and the child
traverses the directory of its parent again, with the subdirectory that refuses.

Key definitions: `Proc.todo`, `Proc.unborn`, `Bounded`.
-/
import OsLabs.Jobserver.Semaphore

namespace OsLabs
namespace Jobserver

open Processes Run

/-- The programs that the process and those that it will create are to launch. -/
def Proc.todo (p : Proc) : Multiset Path :=
  match p.pc with
  | .semInit _ | .dfs => p.cwd.programs false p.path
  | .subdirs todo progs _ => (todo.map (Subdir.programs false p.path)).sum + files p.path progs
  | .chdir sub => sub.programs false p.path
  | .acquire todo _ _ => files p.path todo
  | .fork prog todo _ _ => {p.file prog} + files p.path todo
  | .watcher prog | .execl prog => {p.file prog}
  | _ => 0

/-- How many processes come from the process. -/
def Proc.unborn (p : Proc) : ℕ :=
  match p.pc with
  | .semInit _ | .dfs => p.cwd.forks
  | .subdirs todo progs _ => (todo.map fun sub => 1 + sub.forks).sum + 2 * progs.length
  | .chdir sub => sub.forks
  | .acquire todo _ _ => 2 * todo.length
  | .fork _ todo _ _ => 2 + 2 * todo.length
  | .watcher _ => 1
  | _ => 0

/-- Nothing that the process has still to traverse refuses `chdir`. -/
def Proc.Tame (p : Proc) : Prop :=
  match p.pc with
  | .semInit _ | .dfs => Smooth p.cwd
  | .subdirs todo _ _ => ∀ sub ∈ todo, sub.enters = true ∧ Smooth sub.dir
  | .chdir sub => sub.enters = true ∧ Smooth sub.dir
  | _ => True

/-- There are no more than `n` levels for its recursion. -/
def Proc.Shallow (n : ℕ) (p : Proc) : Prop :=
  match p.pc with
  | .semInit _ => p.depth + p.cwd.height ≤ n
  -- this call is one of `depth`
  | .dfs => p.depth + heightOf p.cwd.entries ≤ n
  | .subdirs todo _ _ => p.depth ≤ n ∧ ∀ sub ∈ todo, p.depth + sub.dir.height ≤ n
  | .chdir sub => p.depth + sub.dir.height ≤ n
  | _ => p.depth ≤ n

theorem Proc.Shallow.depth_le {n : ℕ} {p : Proc} (h : p.Shallow n) : p.depth ≤ n := by
  unfold Proc.Shallow at h
  split at h <;> omega

section

variable {s s' : State} {i : ℕ} {p p' q : Proc} {ok : Bool}

theorem Quiet.todo (h : Quiet s p p') (ht : p.Tame) : p'.todo = p.todo := by
  cases h with
  | dfs h => simp [Proc.todo, h]
  | chdir h =>
    have henters : _ = true := (by simpa [Proc.Tame, h] using ht : _ ∧ _).1
    simp [Proc.todo, h, p.chdir_enters henters, Subdir.programs, henters]
  | scan h ho => simp [Proc.todo, h, Dir.programs_eq (d := p.cwd) (show (false || p.cwd.opens) = true from ho)]
  | crash h ho => simp [Proc.todo, h, Dir.programs, ho]
  | forked h | started h | waitSub h | waitWatch h | done h | waitChild h | waitNone h => simp [Proc.todo, h]

theorem Quiet.unborn (h : Quiet s p p') (ht : p.Tame) : p'.unborn = p.unborn := by
  cases h with
  | dfs h => simp [Proc.unborn, h]
  | chdir h =>
    have henters : _ = true := (by simpa [Proc.Tame, h] using ht : _ ∧ _).1
    simp [Proc.unborn, h, p.chdir_enters henters, Subdir.forks, henters]
  | scan h ho => simp [Proc.unborn, h, Dir.forks_eq ho]
  | crash h ho => simp [Proc.unborn, h, Dir.forks, ho]
  | forked h | started h | waitSub h | waitWatch h | done h | waitChild h | waitNone h => simp [Proc.unborn, h]

theorem Quiet.tame (h : Quiet s p p') (ht : p.Tame) : p'.Tame := by
  cases h with
  | dfs h => simpa [Proc.Tame, h] using ht
  | @chdir sub h =>
    obtain ⟨henters, hsmooth⟩ : sub.enters = true ∧ Smooth sub.dir := by simpa [Proc.Tame, h] using ht
    simpa [Proc.Tame, p.chdir_enters henters] using hsmooth
  | scan h ho =>
    have hsmooth : Smooth p.cwd := by simpa [Proc.Tame, h] using ht
    cases hsmooth with
    | mk enters below => exact fun sub hsub => ⟨enters ho sub hsub, below ho sub hsub⟩
  | _ => simp [Proc.Tame]

theorem Quiet.shallow {n : ℕ} (h : Quiet s p p') (ht : p.Tame) (hn : p.Shallow n) : p'.Shallow n := by
  have hdepth := hn.depth_le
  cases h with
  | dfs h =>
    simp only [Proc.Shallow, h, Dir.height] at hn
    simp only [Proc.Shallow, Proc.call_pc, Proc.call_depth, Proc.call_cwd]
    omega
  | @chdir sub h =>
    obtain ⟨henters, -⟩ : sub.enters = true ∧ Smooth sub.dir := by simpa [Proc.Tame, h] using ht
    simp only [Proc.Shallow, h, Dir.height] at hn
    simp only [Proc.Shallow, p.chdir_enters henters, Proc.call_pc, Proc.call_depth, Proc.call_cwd]
    omega
  | scan h =>
    simp only [Proc.Shallow, h] at hn
    refine ⟨hdepth, fun sub hsub => ?_⟩
    have := Dir.height_sub hsub
    simp only [Dir.height, Proc.goto_depth] at *
    omega
  | _ => simpa [Proc.Shallow] using hdepth

theorem Forks.todo (h : Forks s i p p' q) : p'.todo + q.todo = p.todo := by
  cases h with
  | subdir h =>
    simp only [Proc.todo, h, Proc.goto_pc, Proc.goto_path, Proc.forked_pc, Proc.forked_path, List.map_cons, List.sum_cons]
    abel
  | watcher h =>
    simp only [Proc.todo, h, Proc.goto_pc, Proc.goto_path, Proc.forked_pc, Proc.file, Proc.forked_path]
    abel
  | command h => simp [Proc.todo, h, Proc.file]

theorem Forks.unborn (h : Forks s i p p' q) : 1 + (p'.unborn + q.unborn) = p.unborn := by
  cases h with
  | subdir h =>
    simp only [Proc.unborn, h, Proc.goto_pc, Proc.forked_pc, List.map_cons, List.sum_cons]
    omega
  | watcher h =>
    simp only [Proc.unborn, h, Proc.goto_pc, Proc.forked_pc]
    omega
  | command h => simp [Proc.unborn, h]

theorem Forks.tame (h : Forks s i p p' q) (ht : p.Tame) : p'.Tame ∧ q.Tame := by
  cases h with
  | subdir h =>
    simp only [Proc.Tame, h, List.forall_mem_cons] at ht
    exact ⟨ht.2, ht.1⟩
  | watcher h | command h => exact ⟨trivial, trivial⟩

theorem Forks.shallow {n : ℕ} (h : Forks s i p p' q) (hn : p.Shallow n) : p'.Shallow n ∧ q.Shallow n := by
  cases h with
  | subdir h =>
    simp only [Proc.Shallow, h, List.forall_mem_cons] at hn
    exact ⟨⟨hn.1, hn.2.2⟩, hn.2.1⟩
  | watcher h | command h => exact ⟨hn.depth_le, hn.depth_le⟩

/-! ### Trees without a refusal -/

/-- What every step keeps. -/
structure Shared (root : Dir) (s : State) : Prop where
  launches : s.launched + total Proc.todo s.procs = root.programs false []
  born : s.procs.length + total Proc.unborn s.procs = 1 + root.forks
  tame : ∀ p ∈ s.procs, p.Tame
  shallow : ∀ p ∈ s.procs, p.Shallow root.height

variable {root : Dir}

/-- A step of a process that launches nothing and forks nobody. -/
theorem Shared.goes (h : Shared root s) (p' : Proc) (hp : s.procs[i]? = some p) (htodo : p'.todo = p.todo)
    (hunborn : p'.unborn = p.unborn) (htame : p'.Tame) (hshallow : p'.Shallow root.height) :
    Shared root (s.goes i p') := by
  have hlen := next_length s.procs i p' none
  refine ⟨?_, ?_, next_forall h.tame htame nofun, next_forall h.shallow hshallow nofun⟩
  · simp only [State.goes, total_goes Proc.todo p' hp htodo, h.launches]
  · simp only [State.goes, total_goes Proc.unborn p' hp hunborn, hlen,
      Option.toList_none, List.length_nil, add_zero, h.born]

/-- A step that leaves the traversal. -/
theorem Shared.leaves (h : Shared root s) (pc : PC) (hp : s.procs[i]? = some p) (htodo : (p.goto pc).todo = p.todo)
    (hunborn : (p.goto pc).unborn = p.unborn) (htame : (p.goto pc).Tame)
    (hshallow : (p.goto pc).Shallow root.height ↔ p.depth ≤ root.height) : Shared root (s.goes i (p.goto pc)) :=
  h.goes _ hp htodo hunborn htame (hshallow.mpr (h.shallow p (List.mem_of_getElem? hp)).depth_le)

theorem Shared.launch (h : Shared root s) (hp : s.procs[i]? = some p) {prog : String} (hpc : p.pc = .execl prog) {pc : PC}
    (htodo : (p.goto pc).todo = 0) (hunborn : (p.goto pc).unborn = 0) (htame : (p.goto pc).Tame)
    (hshallow : (p.goto pc).Shallow root.height ↔ p.depth ≤ root.height) :
    Shared root { s.goes i (p.goto pc) with launched := p.file prog ::ₘ s.launched } := by
  have hlen := next_length s.procs i (p.goto pc) none
  have hdepth := (h.shallow p (List.mem_of_getElem? hp)).depth_le
  refine ⟨?_, ?_, next_forall h.tame htame nofun, next_forall h.shallow (hshallow.mpr hdepth) nofun⟩
  · have hold : p.todo = {p.file prog} := by simp [Proc.todo, hpc]
    rw [← h.launches]
    refine total_conserve hp ?_
    rw [htodo, hold, Option.toList_none, total_nil, add_zero, add_zero, ← Multiset.singleton_add, add_comm]
  · have hold : p.unborn = 0 := by simp [Proc.unborn, hpc]
    simp only [State.goes, total_goes Proc.unborn (p.goto pc) hp (by rw [hunborn, hold]),
      hlen, Option.toList_none, List.length_nil, add_zero, h.born]

theorem Shared.step (h : Shared root s) (hp : s.procs[i]? = some p) (hs : Steps s i p ok s') : Shared root s' := by
  have htame := h.tame p (List.mem_of_getElem? hp)
  have hshallow := h.shallow p (List.mem_of_getElem? hp)
  cases hs with
  | quiet hq => exact h.goes _ hp (hq.todo htame) (hq.unborn htame) (hq.tame htame) (hq.shallow htame hshallow)
  | @forks p' q hf =>
    have hlen := next_length s.procs i p' (some q)
    have hqs : ∀ r, some q = some r → r.Tame ∧ r.Shallow root.height := by
      rintro r ⟨⟩
      exact ⟨(hf.tame htame).2, (hf.shallow hshallow).2⟩
    refine ⟨?_, ?_, next_forall h.tame (hf.tame htame).1 fun r hr => (hqs r hr).1,
      next_forall h.shallow (hf.shallow hshallow).1 fun r hr => (hqs r hr).2⟩
    · simp only [State.forks, total_forks Proc.todo hp hf.todo, h.launches]
    · rw [← h.born]
      refine total_conserve hp ?_
      have := hf.unborn
      simp only [State.forks, hlen, Option.toList_some, List.length_singleton, total_cons, total_nil]
      omega
  | @post left hpc =>
    have h' := h.goes (p.goto (.semInit left)) hp (by simp [Proc.todo, hpc]) (by simp [Proc.unborn, hpc])
      (by simpa [Proc.Tame, hpc] using htame) (by simpa [Proc.Shallow, hpc] using hshallow)
    exact ⟨h'.launches, h'.born, h'.tame, h'.shallow⟩
  | @acquire prog todo subPids watchPids hpc =>
    have h' := h.leaves (.fork prog todo subPids watchPids) hp (by simp [Proc.todo, hpc, Proc.file])
      (by simp only [Proc.unborn, hpc, Proc.goto_pc, List.length_cons]; omega) trivial Iff.rfl
    exact ⟨h'.launches, h'.born, h'.tame, h'.shallow⟩
  | release hpc | finish hpc =>
    have h' := h.leaves .exited hp (by simp [Proc.todo, hpc]) (by simp [Proc.unborn, hpc]) trivial Iff.rfl
    exact ⟨h'.launches, h'.born, h'.tame, h'.shallow⟩
  | launch hpc | fail hpc => exact h.launch hp hpc (by simp [Proc.todo]) (by simp [Proc.unborn]) trivial Iff.rfl

theorem init_shared (hroot : Smooth root) (k : ℕ) : Shared root (init root k) :=
  ⟨by simp [init, Proc.todo], by simp [init, Proc.unborn], by simpa [init, Proc.Tame] using hroot,
    by simp [init, Proc.Shallow]⟩

end

/-- Each program that can be reached is launched at most once, at most `n` processes are created, and `dfs` recurs to
the depth of the tree at most. -/
def Bounded (root : Dir) (n : ℕ) (s : State) : Prop :=
  s.launched ≤ root.programs false [] ∧ s.procs.length ≤ n ∧ ∀ p ∈ s.procs, p.depth ≤ root.height

section

variable {s s' : State} {root : Dir} {i : ℕ} {p : Proc}

theorem Shared.bounded (h : Shared root s) : Bounded root (1 + root.forks) s := by
  refine ⟨?_, ?_, fun p hp => (h.shallow p hp).depth_le⟩
  · rw [← h.launches]
    exact Multiset.le_add_right _ _
  · rw [← h.born]
    exact Nat.le_add_right _ _

/-- `main` in `sem_init`, with more bytes to write than the pipe takes. -/
def Filling (root : Dir) (s : State) : Prop :=
  s.launched = 0 ∧ ∃ left, s.procs = [⟨0, [], root, 0, .semInit left⟩] ∧ s.bytes ≤ CAPACITY ∧ CAPACITY < s.bytes + left

theorem Filling.kept (h : Filling root s) (e : Event) : Sat (Filling root) (fun _ => True) (step s e) := by
  obtain ⟨hlaunched, left, hprocs, hfull, hleft⟩ := h
  cases hs : step s e with
  | error x => trivial
  | ok s' =>
    obtain ⟨p, hp, hsteps⟩ := step_steps hs
    have hmain : e.pid = 0 ∧ p = ⟨0, [], root, 0, .semInit left⟩ := by
      rw [hprocs] at hp
      cases he : e.pid with
      | zero =>
        rw [he] at hp
        cases hp
        exact ⟨rfl, rfl⟩
      | succ j => simp [he] at hp
    obtain ⟨he, rfl⟩ := hmain
    rw [he] at hsteps
    cases hsteps with
    | quiet hq =>
      cases hq with
      | dfs h =>
        cases h
        omega
      | _ h => cases h
    | forks hf => cases hf <;> rename_i h <;> cases h
    | @post left' h hlt =>
      cases h
      refine ⟨hlaunched, left', by simp [State.goes, next, hprocs, Proc.goto], hlt, ?_⟩
      show CAPACITY < s.bytes + 1 + left'
      omega
    | acquire h | release h | launch h | fail h | finish h => cases h

/-! ### A directory that refuses -/

/-- There is a run from the one state to the other. -/
def Reaches (s s' : State) : Prop := ∃ es, run step s es = .ok s'

theorem Reaches.trans {t : State} (h : Reaches s s') : Reaches s' t → Reaches s t := by
  obtain ⟨es, hes⟩ := h
  rintro ⟨fs, hfs⟩
  exact ⟨es ++ fs, by rw [run_append es fs hes, hfs]⟩

theorem Reaches.one (hp : s.procs[i]? = some p) (h : stepOf s i p true = .ok s') : Reaches s s' :=
  ⟨[⟨i, true⟩], by
    have hs : step s ⟨i, true⟩ = .ok s' := (step_eq hp).trans h
    rw [run_cons_ok [] hs, run_nil]⟩

/-- `sem_init` ends if the pipe takes all bytes. -/
theorem reaches_dfs (root : Dir) : ∀ (left : ℕ) (s : State), s.procs = [⟨0, [], root, 0, .semInit left⟩] →
    s.bytes + left ≤ CAPACITY → ∃ s', Reaches s s' ∧ s'.procs = [⟨0, [], root, 1, .dfs⟩]
  | 0, s, hprocs, _ => by
    have hp : s.procs[0]? = some ⟨0, [], root, 0, .semInit 0⟩ := by rw [hprocs]; rfl
    exact ⟨_, .one hp rfl, by simp [State.goes, next, hprocs, Proc.call]⟩
  | left + 1, s, hprocs, hfull => by
    have hp : s.procs[0]? = some ⟨0, [], root, 0, .semInit (left + 1)⟩ := by rw [hprocs]; rfl
    have hlt : s.bytes < CAPACITY := by omega
    obtain ⟨s', hreach, hs'⟩ := reaches_dfs root left
      { s.goes 0 ⟨0, [], root, 0, .semInit left⟩ with bytes := s.bytes + 1 } (by simp [State.goes, next, hprocs])
      (by show s.bytes + 1 + left ≤ CAPACITY; omega)
    refine ⟨s', .trans (.one hp ?_) hreach, hs'⟩
    show s.write 0 _ = _
    rw [State.write, if_pos hlt]
    rfl

/-- The loop over `subdirs` comes to each of them. -/
theorem reaches_chdir {sub : Subdir} : ∀ (todo : List Subdir) (s : State) (p : Proc) (progs : List String) (subPids : List ℕ),
    s.procs[i]? = some p → p.pc = .subdirs todo progs subPids → sub ∈ todo →
      ∃ (s' : State) (j : ℕ) (q : Proc), Reaches s s' ∧ s.procs.length < s'.procs.length ∧ s'.procs[j]? = some q ∧ q.pc = .chdir sub ∧ q.cwd = p.cwd
  | first :: todo, s, p, progs, subPids, hp, hpc, hsub => by
    have hstep : stepOf s i p true = .ok (s.forks i (p.goto (.subdirs todo progs (subPids ++ [s.procs.length])))
        (p.forked i (.chdir first))) := by simp [stepOf, hpc]
    have hlen : s.procs.length < (s.forks i (p.goto (.subdirs todo progs (subPids ++ [s.procs.length])))
        (p.forked i (.chdir first))).procs.length := by simp [State.forks, next_length]
    rcases List.mem_cons.mp hsub with rfl | hsub
    · exact ⟨_, _, _, .one hp hstep, hlen, next_child, rfl, rfl⟩
    · obtain ⟨s', j, q, hreach, hlt, hq, hqpc, hcwd⟩ := reaches_chdir todo
        (s.forks i (p.goto (.subdirs todo progs (subPids ++ [s.procs.length]))) (p.forked i (.chdir first)))
        (p.goto (.subdirs todo progs (subPids ++ [s.procs.length]))) progs _ (next_self hp) rfl hsub
      exact ⟨s', j, q, .trans (.one hp hstep) hreach, by omega, hq, hqpc, hcwd⟩

/-- A process is to traverse a directory in which a refusal is met. -/
def Rough (s : State) : Prop := ∃ (i : ℕ) (p : Proc), s.procs[i]? = some p ∧ p.pc = .dfs ∧ ¬ Smooth p.cwd

/-- Then one more process comes to do so. -/
theorem Rough.grows (h : Rough s) : ∃ s', Reaches s s' ∧ s.procs.length < s'.procs.length ∧ Rough s' := by
  obtain ⟨i, p, hp, hpc, hrough⟩ := h
  obtain ⟨hopen, sub, hsub, hbad⟩ := not_smooth hrough
  have hscan : stepOf s i p true = .ok (s.goes i (p.goto (.subdirs p.cwd.subdirs p.cwd.progs []))) := by
    simp [stepOf, hpc, hopen]
  obtain ⟨t, j, q, hreach, hlt, hq, hqpc, hcwd⟩ := reaches_chdir (i := i) p.cwd.subdirs
    (s.goes i (p.goto (.subdirs p.cwd.subdirs p.cwd.progs []))) _ p.cwd.progs [] (next_self hp) rfl hsub
  have hchdir : stepOf t j q true = .ok (t.goes j (q.chdir sub)) := by simp [stepOf, hqpc]
  refine ⟨t.goes j (q.chdir sub), .trans (.one hp hscan) (.trans hreach (.one hq hchdir)), ?_, ?_⟩
  · simp only [State.goes, next_length, Option.toList_none, List.length_nil, add_zero] at hlt ⊢
    exact hlt
  · refine ⟨j, q.chdir sub, next_self hq, q.chdir_pc sub, ?_⟩
    cases henters : sub.enters with
    | true =>
      rw [q.chdir_enters henters]
      exact hbad.resolve_left (by simp [henters])
    | false =>
      rw [q.chdir_refused henters, Proc.call_cwd, hcwd]
      exact hrough

theorem Rough.unbounded (h : Rough s) : ∀ n, ∃ s', Reaches s s' ∧ n < s'.procs.length ∧ Rough s'
  | 0 => by
    obtain ⟨s', hreach, hlt, hrough⟩ := h.grows
    exact ⟨s', hreach, by omega, hrough⟩
  | n + 1 => by
    obtain ⟨t, hreach, hlt, hrough⟩ := h.unbounded n
    obtain ⟨s', hreach', hlt', hrough'⟩ := hrough.grows
    exact ⟨s', hreach.trans hreach', by omega, hrough'⟩

end

/-- **At most once.** The processes that the jobserver creates are bounded, and with them the launches and the depth, if
and only if no directory that it meets refuses `chdir`; or `k` is more than the pipe takes, and it never begins. -/
theorem bounded_iff (root : Dir) (k : ℕ) :
    (∃ n, ∀ es, Sat (Bounded root n) (fun _ => True) (run step (init root k) es)) ↔ CAPACITY < k ∨ Smooth root := by
  constructor
  · rintro ⟨n, hn⟩
    by_contra hbad
    obtain ⟨hk, hrough⟩ := not_or.mp hbad
    obtain ⟨t, hstart, ht⟩ := reaches_dfs root k (init root k) rfl (by simpa [init] using hk)
    have hrough : Rough t := ⟨0, ⟨0, [], root, 1, .dfs⟩, by rw [ht]; rfl, rfl, hrough⟩
    obtain ⟨s', hreach, hlt, -⟩ := hrough.unbounded n
    obtain ⟨es, hes⟩ := hstart.trans hreach
    have hbounded := hn es
    rw [hes] at hbounded
    exact absurd hbounded.2.1 (by omega)
  · rintro (hk | hsmooth)
    · refine ⟨1, fun es => ?_⟩
      have hinit : Filling root (init root k) := ⟨rfl, k, rfl, Nat.zero_le _, by simpa [init] using hk⟩
      refine (run_sat (fun s e h _ => Filling.kept h e) es hinit (along_true es _)).mono (fun s h => ?_) fun _ => id
      obtain ⟨hlaunched, left, hprocs, -⟩ := h
      refine ⟨by rw [hlaunched]; exact Multiset.zero_le _, by simp [hprocs], ?_⟩
      simp [hprocs]
    · refine ⟨1 + root.forks, fun es => ?_⟩
      have hstep : ∀ s e, Shared root s → True → Sat (Shared root) (fun _ => True) (step s e) := fun s e h _ => by
        cases hs : step s e with
        | error x => trivial
        | ok s' =>
          obtain ⟨p, hp, hsteps⟩ := step_steps hs
          exact h.step hp hsteps
      exact (run_sat hstep es (init_shared hsmooth k) (along_true es _)).mono (fun _ h => h.bounded) fun _ => id

/-- A program, and a directory that refuses. -/
def refusing : Dir := ⟨true, [.reg "a" true true true, .dir "b" false true []]⟩

/-- The child that cannot enter `b` launches `a` as well. -/
theorem launches_twice :
    ¬ ∃ n, ∀ es, Sat (Bounded refusing n) (fun _ => True) (run step (init refusing 1) es) := by
  rintro ⟨n, hn⟩
  have hlaunched : (run step (init refusing 1) (schedule true [(0, 7), (2, 1), (3, 2), (2, 2), (1, 6), (5, 1), (6, 1)])
      ).toOption.map State.launched = some {["a"], ["a"]} := by
    decide +kernel
  obtain ⟨s, hs, heq⟩ := (hn _).of_map hlaunched
  have hle := hs.1
  rw [heq] at hle
  exact absurd hle (by decide +kernel)

end Jobserver
end OsLabs
