/-
# What a child does with its descriptors

Up to `execvp` a child of the launch loop moves its 0 and 1 away, and if it fails it moves them
back (`redirect`, `resetStdio`). A manager touches the descriptor it is for and those
in its two fields; the two managers of a child touch different ones, so that what the one has
done survives the other.

`redirect_spec` is what the rest of the development knows of the child: it ends at `execvp` with 0 and 1
where the pipeline needs them, or in `main`'s loop with 0 and 1 as the shell has them, except that a 0 that
was not moved is closed.

Key definitions: `Stage`, `Wired`, `Home`.
-/
import OsLabs.Bash.Machine

namespace OsLabs
namespace Bash
namespace Pipe

open Fds

/-! ### Managers -/

def FdManager.Touches (m : FdManager) (fd : ℕ) : Prop := fd = m.usedStd ∨ m.savedStd = some fd ∨ m.openedFd = some fd

/-- The manager has the file `orig` to put back, or has not moved it; or it will close its descriptor. -/
inductive Resets (orig : File) (fds : Table File) (m : FdManager) : Prop
  | saved {saved opened : ℕ} : m.savedStd = some saved → m.openedFd = some opened → get fds saved = some orig →
      saved ≠ m.usedStd → opened ≠ m.usedStd → Resets orig fds m
  | unmoved : m.savedStd = none → get fds m.usedStd = some orig → m.openedFd ≠ some m.usedStd → Resets orig fds m
  | closes : m.savedStd = none → m.openedFd = some m.usedStd → Resets orig fds m

section

variable {fds fds' : Table File} {m : FdManager} {orig : File} {fd : ℕ}

theorem get_resetStdio_ne (h : ¬ m.Touches fd) : get (resetStdio fds m) fd = get fds fd := by
  obtain ⟨used, saved, opened⟩ := m
  simp only [FdManager.Touches, not_or] at h
  obtain ⟨h1, h2, h3⟩ := h
  have hopened : ∀ (t : Table File) {o : ℕ}, opened = some o → get (Fds.close t o) fd = get t fd := fun t o ho =>
    get_close_ne fun hn => h3 (by rw [ho, hn])
  have hsaved : ∀ {sv : ℕ}, saved = some sv → get (Fds.close (dup2 fds sv used) sv) fd = get fds fd := fun {sv} hsv => by
    rw [get_close_ne fun hn => h2 (by rw [hsv, hn]), get_dup2_ne h1]
  unfold resetStdio
  cases saved with
  | none =>
    cases opened with
    | none => rfl
    | some o => exact hopened fds rfl
  | some sv =>
    cases opened with
    | none => exact hsaved rfl
    | some o => exact (hopened _ rfl).trans (hsaved rfl)

/-- What `ResetStdIO` leaves in the manager's descriptor. -/
theorem Resets.get_reset (h : Resets orig fds m) :
    get (resetStdio fds m) m.usedStd = some orig ∨
      get (resetStdio fds m) m.usedStd = none ∧ m.openedFd = some m.usedStd := by
  obtain ⟨used, saved, opened⟩ := m
  cases h with
  | @saved sv o hsv ho hget hne hne' =>
    cases hsv
    cases ho
    refine Or.inl ?_
    simp only [resetStdio, get_close_ne (Ne.symm hne'), get_close_ne (Ne.symm hne)]
    exact get_dup2 hget
  | unmoved hsv hget hne =>
    cases hsv
    refine Or.inl ?_
    cases opened with
    | none => exact hget
    | some o => rwa [resetStdio, get_close_ne fun hn => hne (congrArg some hn.symm)]
  | closes hsv ho =>
    cases hsv
    obtain rfl : opened = some used := ho
    exact Or.inr ⟨get_close_self _ _, rfl⟩

theorem Resets.congr (h : Resets orig fds m) (hsame : ∀ fd, m.Touches fd → get fds' fd = get fds fd) :
    Resets orig fds' m := by
  cases h with
  | saved hsv ho hget hne hne' => exact .saved hsv ho ((hsame _ (Or.inr (Or.inl hsv))).trans hget) hne hne'
  | unmoved hsv hget hne => exact .unmoved hsv ((hsame _ (Or.inl rfl)).trans hget) hne
  | closes hsv ho => exact .closes hsv ho

/-- A redirect adds no file but the one it opens. -/
def File.IsOpened (f : File) : Prop := ∃ mode path, f = .opened mode path

theorem resetStdio_sub (fds : Table File) (m : FdManager) : Sub File.IsOpened fds (resetStdio fds m) := by
  obtain ⟨used, saved, opened⟩ := m
  have hsaved : ∀ sv, Sub File.IsOpened fds (Fds.close (dup2 fds sv used) sv) := fun sv => (Sub.dup2 _ _ _).trans (Sub.close _ _)
  unfold resetStdio
  cases saved with
  | none =>
    cases opened with
    | none => exact Sub.refl fds
    | some o => exact Sub.close fds o
  | some sv =>
    cases opened with
    | none => exact hsaved sv
    | some o => exact (hsaved sv).trans (Sub.close _ o)

end

/-! ### The child -/

/-- The files that a command's redirects of a kind name. -/
def files (mode : Mode) (command : List Token) : List Text := ((targets command).filter (·.1 = mode)).map (·.2)

/-- One of them cannot be opened. -/
def missing (opens : Mode → Text → Bool) (mode : Mode) (command : List Token) : Bool :=
  (files mode command).any fun path => !opens mode path

/-- A child fails before `execvp`. -/
def Call.fails (c : Call) (opens : Mode → Text → Bool) : Bool :=
  c.commands[c.i]?.any fun command =>
    c.i = 0 && missing opens .read command || c.i = c.cnt - 1 && missing opens .write command

/-- What the commands of an accepted line are. -/
def Fit (command : List Token) : Prop := Targeted command ∧ ∀ mode, (files mode command).length ≤ 1

/-- The descriptors of a shell in `main`'s loop: those it was started with, or no 0. -/
structure Home (fds : Table File) : Prop where
  stdin : get fds 0 = some (.inherited 0) ∨ get fds 0 = none
  stdout : get fds 1 = some (.inherited 1)

/-- Behind `pipe` in the launch loop, in the shell and in the child. -/
structure Stage (c : Call) (fds : Table File) : Prop where
  stdin : get fds 0 = some (.inherited 0)
  stdout : get fds 1 = some (.inherited 1)
  cnt : c.cnt = c.commands.length
  fit : ∀ command ∈ c.commands, Fit command
  i_lt : c.i < c.cnt
  pipes : c.pipes.length = c.i + 1
  read : ∀ k, c.pipes[c.i]? = some k → get fds c.pipefd.1 = some (.readEnd k)
  write : ∀ k, c.pipes[c.i]? = some k → get fds c.pipefd.2 = some (.writeEnd k)
  first : c.i = 0 → c.inFd = 0
  next : ∀ j k, c.i = j + 1 → c.pipes[j]? = some k → get fds c.inFd = some (.readEnd k)

/-- What command `i`'s descriptor 0 must refer to. -/
def expectedIn (c : Call) (command : List Token) : Option File :=
  match c.i with
  | 0 => some (match files .read command with | path :: _ => .opened .read path | [] => .inherited 0)
  | j + 1 => c.pipes[j]?.map .readEnd

/-- And its 1. -/
def expectedOut (c : Call) (command : List Token) : Option File :=
  if c.i = c.cnt - 1 then
    some (match files .write command with | path :: _ => .opened .write path | [] => .inherited 1)
  else c.pipes[c.i]?.map .writeEnd

/-- The descriptors with which a command is executed. -/
structure Wired (c : Call) (fds : Table File) : Prop where
  cnt : c.cnt = c.commands.length
  i_lt : c.i < c.cnt
  pipes : c.pipes.length = c.i + 1
  stdin : ∀ command, c.commands[c.i]? = some command → get fds 0 = expectedIn c command
  stdout : ∀ command, c.commands[c.i]? = some command → get fds 1 = expectedOut c command

theorem validate_files {σ : Type} {command : List Token} (h : Targeted command) (f : σ → Mode → Text → σ) (mode : Mode)
    (s : σ) : validateIOAndOpenFile f (mode = .read) (mode = .write) command s =
      .ok ((files mode command).foldl (fun s path => f s mode path) s) := by
  rw [validateIOAndOpenFile_eq h]
  have hfilter : ((targets command).filter fun x => if x.1 = .read then decide (mode = .read) else decide (mode = .write)) =
      (targets command).filter (·.1 = mode) := List.filter_congr fun x _ => by cases x.1 <;> cases mode <;> rfl
  rw [hfilter, files]
  congr 1
  generalize hxs : (targets command).filter (·.1 = mode) = xs
  have hmode : ∀ x ∈ xs, x.1 = mode := fun x hx => by
    rw [← hxs] at hx
    simpa using (List.mem_filter.mp hx).2
  clear hxs hfilter
  induction xs generalizing s with
  | nil => rfl
  | cons x xs ih =>
    rw [List.map_cons, List.foldl_cons, List.foldl_cons, ih (f s x.1 x.2) fun y hy => hmode y (List.mem_cons_of_mem _ hy),
      hmode x (List.mem_cons_self ..)]

/-- The validators count what the redirects open. -/
theorem length_files {command : List Token} (h : Targeted command) :
    (files .read command).length = countIn (runOf command) ∧ (files .write command).length = countOut (runOf command) := by
  induction h with
  | @stop command hstop =>
    rw [runOf_eq_nil.mpr hstop, files, files, targets_stop hstop]
    exact ⟨rfl, rfl⟩
  | word ht _ ih =>
    rw [runOf_cons (by rw [ht]; decide)]
    simpa [files, targets_word ht, countIn, countOut, ht] using ih
  | infile ht hu _ ih =>
    rw [runOf_cons (by rw [ht]; decide), runOf_cons (by rw [hu]; decide)]
    simpa [files, targets_infile ht, countIn, countOut, ht, hu] using ih
  | outfile ht hu _ ih =>
    rw [runOf_cons (by rw [ht]; decide), runOf_cons (by rw [hu]; decide)]
    simpa [files, targets_outfile ht, countIn, countOut, ht, hu] using ih

/-- The commands of an accepted line. -/
theorem fit_of_launch {text : List Char} {commands : List (List Token)} {cnt : ℕ}
    (h : exec (tokenizerInit text) = .ok (.launch commands cnt)) :
    cnt = commands.length ∧ 0 < cnt ∧ ∀ command ∈ commands, Fit command := by
  obtain ⟨out, hout, hverdict⟩ := exec_eq (tokenizerInit text) rfl
  obtain rfl : out = .launch commands cnt := Except.ok.inj (hout.symm.trans h)
  have hnil : (tokenizerInit text).head ≠ [] := fun hn => absurd (hverdict.nothing.mpr hn) nofun
  have hmal : ¬ Malformed (runs (tokenizerInit text).head) := fun hn =>
    absurd ((hverdict.syntaxError hnil).mpr hn) nofun
  have hlaunch := hverdict.launch hnil hmal
  rw [length_runs] at hlaunch
  cases hlaunch
  refine ⟨rfl, Nat.succ_pos _, fun command hc => ?_⟩
  obtain ⟨j, hj⟩ := List.mem_iff_getElem?.mp hc
  rw [malformed_iff, not_or] at hmal
  have hok : ¬ Refused _ _ false false (runOf command) := fun hn =>
    hmal.2 ⟨j, runOf command, runs_getElem?.mpr ⟨command, hj, rfl⟩, hn⟩
  simp only [Refused, not_or, not_lt] at hok
  have htargeted := targeted_of_run command hok.1
  have hle : ∀ p, allowance p false ≤ 1 := by decide
  refine ⟨htargeted, fun mode => ?_⟩
  obtain ⟨hin, hout⟩ := length_files htargeted
  cases mode with
  | read => exact hin.trans_le (hok.2.1.trans (hle _))
  | write => exact hout.trans_le (hok.2.2.trans (hle _))

section

variable {c : Call} {fds : Table File} {command : List Token} {opens : Mode → Text → Bool}

/-- A child's `in_manager` or `out_manager` when it is done with the descriptor `u`: 0 or 1 refers to
`f`, and what else it touches was free, or is `openedFd` from the start. -/
structure Moved (u : ℕ) (start : ℕ) (orig f : File) (fds : Table File) (r : Redirect) : Prop where
  used : r.manager.usedStd = u
  std : get r.fds u = some f
  resets : Resets orig r.fds r.manager
  openedFd : r.manager.openedFd ≠ some u
  touches : ∀ fd, r.manager.Touches fd → fd = u ∨ fd = start ∨ get fds fd = none
  opened : ∀ fd, r.manager.Touches fd → fd ≠ u → get r.fds fd ≠ none
  frame : ∀ fd, fd ≠ u → get fds fd ≠ none → get r.fds fd = get fds fd
  sub : Sub File.IsOpened fds r.fds

/-- `dup` and `dup2`, in a table `t` that has all that `fds` has. -/
theorem moved_dupStd {u start opened : ℕ} {orig f : File} {t : Table File} {m : FdManager} (hu : m.usedStd = u)
    (ho : m.openedFd = some opened) (horig : get fds u = some orig) (hf : get t opened = some f) (hne : opened ≠ u)
    (hstart : opened = start ∨ get fds opened = none) (hkeep : ∀ fd, get fds fd ≠ none → get t fd = get fds fd)
    (hsub : Sub File.IsOpened fds t) :
    Moved u start orig f fds ⟨(dupStd t m opened).1, (dupStd t m opened).2, false⟩ := by
  have hu' : get t u = some orig := (hkeep u (by rw [horig]; exact nofun)).trans horig
  have hul : u ≠ lowest t := ne_lowest hu'
  have hol : opened ≠ lowest t := ne_lowest hf
  have hfree : get fds (lowest t) = none := by
    by_contra hn
    exact hn ((hkeep _ hn).symm.trans (get_lowest t))
  have hdup : Fds.dup t u = some (alloc t orig) := by rw [Fds.dup, hu', Option.map_some]
  have heq : dupStd t m opened = (dup2 (alloc t orig).1 opened u, { m with savedStd := some (lowest t) }) := by
    unfold dupStd
    rw [hu, hdup]
    rfl
  have hsaved : get (dup2 (alloc t orig).1 opened u) (lowest t) = some orig := by
    rw [get_dup2_ne (Ne.symm hul)]
    exact get_alloc_self t orig
  have hopened : get (dup2 (alloc t orig).1 opened u) opened = some f := by
    rw [get_dup2_ne hne]
    exact get_alloc hf
  rw [heq]
  refine ⟨hu, get_dup2 (get_alloc hf), ?_, fun hn => hne (Option.some.inj (ho.symm.trans hn)), ?_, ?_,
    fun fd h1 h2 => ?_, (hsub.trans (Sub.dup hdup)).trans (Sub.dup2 _ _ _)⟩
  · exact .saved rfl ho hsaved (by rw [hu]; exact Ne.symm hul) (by rw [hu]; exact hne)
  · rintro fd (h | h | h)
    · exact Or.inl (h.trans hu)
    · cases h
      exact Or.inr (Or.inr hfree)
    · obtain rfl : opened = fd := Option.some.inj (ho.symm.trans h)
      exact Or.inr hstart
  · rintro fd (h | h | h) hfd
    · exact absurd (h.trans hu) hfd
    · cases h
      rw [hsaved]
      exact nofun
    · obtain rfl : opened = fd := Option.some.inj (ho.symm.trans h)
      rw [hopened]
      exact nofun
  · have hfd : fd ≠ lowest t := fun hn => h2 (hn ▸ hfree)
    rw [get_dup2_ne h1]
    exact (get_put_ne hfd).trans (hkeep fd h2)

/-- `Dup` moves `u` to what `start` refers to. -/
theorem moved_dup {u start : ℕ} {orig f : File} (horig : get fds u = some orig) (hf : get fds start = some f)
    (hne : start ≠ u) : Moved u start orig f fds
      ⟨(dup fds ⟨u, none, some start⟩).1, (dup fds ⟨u, none, some start⟩).2, false⟩ :=
  moved_dupStd rfl rfl horig hf hne (Or.inl rfl) (fun _ _ => rfl) (Sub.refl fds)

/-- `DupWithOpen` moves `u` to a file that it opens. -/
theorem moved_open (start : ℕ) {u : ℕ} {orig : File} {mode : Mode} {path : Text} (horig : get fds u = some orig)
    (hok : opens mode path = true) {m : FdManager} (hm : m.usedStd = u) :
    Moved u start orig (.opened mode path) fds (dupWithOpen opens ⟨fds, m, false⟩ mode path) := by
  unfold dupWithOpen
  rw [if_pos hok]
  exact moved_dupStd hm rfl horig (get_alloc_self fds _) (Ne.symm (ne_lowest horig)) (Or.inr (get_lowest fds))
    (fun fd hfd => by
      obtain ⟨g, hg⟩ := Option.ne_none_iff_exists'.mp hfd
      exact (get_alloc hg).trans hg.symm)
    (Sub.put (Or.inl ⟨mode, path, rfl⟩) _)

theorem Stage.current (h : Stage c fds) : ∃ k, c.pipes[c.i]? = some k := by
  have hlt : c.i < c.pipes.length := by rw [h.pipes]; exact Nat.lt_succ_self _
  exact ⟨c.pipes[c.i], List.getElem?_eq_getElem hlt⟩

theorem Stage.run (h : Stage c fds) : ∃ command, c.commands[c.i]? = some command := by
  have hlt : c.i < c.commands.length := h.cnt ▸ h.i_lt
  exact ⟨c.commands[c.i], List.getElem?_eq_getElem hlt⟩

/-- Which descriptors are different ones is seen from what they refer to. -/
theorem ne_of_get {fds : Table File} {a b : ℕ} {f g : File} (ha : get fds a = some f) (hb : get fds b = some g) (hne : f ≠ g) :
    a ≠ b := by
  rintro rfl
  exact hne (Option.some.inj (ha.symm.trans hb))

theorem files_cases (mode : Mode) (h : Fit command) : files mode command = [] ∨ ∃ path, files mode command = [path] := by
  have hlen := h.2 mode
  cases hfiles : files mode command with
  | nil => exact Or.inl rfl
  | cons path rest =>
    rw [hfiles] at hlen
    cases rest with
    | nil => exact Or.inr ⟨path, rfl⟩
    | cons _ _ => exact absurd hlen (by simp)

/-- A failed `open` leaves the descriptors alone. -/
theorem dupWithOpen_fail {m : FdManager} {mode : Mode} {path : Text} (h : opens mode path = false) :
    dupWithOpen opens ⟨fds, m, false⟩ mode path = ⟨fds, { m with openedFd := none }, true⟩ := by
  unfold dupWithOpen
  rw [h]
  rfl

/-- The child behind its `in_manager`. -/
structure AfterIn (c : Call) (command : List Token) (fds : Table File) (r : Redirect) : Prop where
  used : r.manager.usedStd = 0
  resets : Resets (.inherited 0) r.fds r.manager
  touches : ∀ fd, r.manager.Touches fd → fd ≠ 1 ∧ fd ≠ c.pipefd.2 ∧ get r.fds fd ≠ none
  stdin : (get r.fds 0).isSome
  expected : r.ioError = false → get r.fds 0 = expectedIn c command
  frame : ∀ fd, fd ≠ 0 → get fds fd ≠ none → get r.fds fd = get fds fd
  sub : Sub File.IsOpened fds r.fds

theorem Moved.afterIn {start : ℕ} {f : File} {r : Redirect} (hr : Moved 0 start (.inherited 0) f fds r) (h : Stage c fds)
    (hstart : start ≠ 1 ∧ start ≠ c.pipefd.2) (hexp : some f = expectedIn c command) : AfterIn c command fds r := by
  obtain ⟨k, hk⟩ := h.current
  have hw := h.write k hk
  refine ⟨hr.used, hr.resets, fun fd hfd => ?_, by rw [hr.std]; rfl, fun _ => hr.std.trans hexp, hr.frame, hr.sub⟩
  have hopen : get r.fds fd ≠ none := by
    by_cases h0 : fd = 0
    · rw [h0, hr.std]
      exact nofun
    · exact hr.opened fd hfd h0
  rcases hr.touches fd hfd with rfl | rfl | hfree
  · exact ⟨by decide, ne_of_get h.stdin hw nofun, hopen⟩
  · exact ⟨hstart.1, hstart.2, hopen⟩
  · refine ⟨?_, ?_, hopen⟩
    · rintro rfl
      rw [h.stdout] at hfree
      exact absurd hfree nofun
    · rintro rfl
      rw [hw] at hfree
      exact absurd hfree nofun

theorem redirectIn_spec (h : Stage c fds) (hcommand : c.commands[c.i]? = some command) (opens : Mode → Text → Bool) :
    ∃ r, redirectIn c command opens fds = .ok r ∧ AfterIn c command fds r ∧
      r.ioError = (c.i = 0 && missing opens .read command) := by
  obtain ⟨k, hk⟩ := h.current
  have hw := h.write k hk
  have h0w : (0 : ℕ) ≠ c.pipefd.2 := ne_of_get h.stdin hw nofun
  have hfit := h.fit command (List.mem_of_getElem? hcommand)
  unfold redirectIn
  cases hi : c.i with
  | zero =>
    have hvalidate := validate_files hfit.1 (dupWithOpen opens) .read ⟨fds, ⟨0, none, some c.inFd⟩, false⟩
    simp only [if_true]
    refine ⟨_, hvalidate, ?_⟩
    have hexp : expectedIn c command = some (match files .read command with
        | path :: _ => .opened .read path
        | [] => .inherited 0) := by rw [expectedIn, hi]
    rcases files_cases .read hfit with hnil | ⟨path, hpath⟩
    · rw [hnil, List.foldl_nil, h.first hi]
      rw [hnil] at hexp
      refine ⟨⟨rfl, .closes rfl rfl, ?_, by rw [h.stdin]; rfl, fun _ => h.stdin.trans hexp.symm, fun _ _ _ => rfl,
        Sub.refl _⟩, by simp [missing, hnil]⟩
      rintro fd (hfd | hfd | hfd)
      · rw [show fd = 0 from hfd, h.stdin]
        exact ⟨by decide, h0w, nofun⟩
      · exact absurd hfd nofun
      · obtain rfl : 0 = fd := Option.some.inj hfd
        rw [h.stdin]
        exact ⟨by decide, h0w, nofun⟩
    · rw [hpath, List.foldl_cons, List.foldl_nil]
      rw [hpath] at hexp
      cases hok : opens .read path with
      | true =>
        refine ⟨(moved_open 0 h.stdin hok rfl).afterIn h ⟨by decide, h0w⟩ hexp.symm, ?_⟩
        simp [missing, hpath, hok, dupWithOpen]
      | false =>
        rw [dupWithOpen_fail hok]
        refine ⟨⟨rfl, .unmoved rfl h.stdin nofun, ?_, by rw [h.stdin]; rfl, nofun, fun _ _ _ => rfl, Sub.refl _⟩,
          by simp [missing, hpath, hok]⟩
        rintro fd (hfd | hfd | hfd)
        · rw [show fd = 0 from hfd, h.stdin]
          exact ⟨by decide, h0w, nofun⟩
        · exact absurd hfd nofun
        · exact absurd hfd nofun
  | succ j =>
    have hlt : j < c.pipes.length := by rw [h.pipes]; omega
    have hin := h.next j c.pipes[j] hi (List.getElem?_eq_getElem hlt)
    have hexp : expectedIn c command = some (.readEnd c.pipes[j]) := by
      rw [expectedIn, hi]
      simp [hlt]
    exact ⟨_, rfl, (moved_dup h.stdin hin (Ne.symm (ne_of_get h.stdin hin nofun))).afterIn h
      ⟨Ne.symm (ne_of_get h.stdout hin nofun), ne_of_get hin hw nofun⟩ hexp.symm, by simp⟩

/-- The child behind its `out_manager`; `fds` are its descriptors before. -/
structure AfterOut (c : Call) (command : List Token) (fds : Table File) (r : Redirect) : Prop where
  used : r.manager.usedStd = 1
  resets : Resets (.inherited 1) r.fds r.manager
  openedFd : r.manager.openedFd ≠ some 1
  touches : ∀ fd, r.manager.Touches fd → fd = 1 ∨ fd = c.pipefd.2 ∨ get fds fd = none
  expected : r.ioError = false → get r.fds 1 = expectedOut c command
  frame : ∀ fd, fd ≠ 1 → get fds fd ≠ none → get r.fds fd = get fds fd
  sub : Sub File.IsOpened fds r.fds

theorem redirectOut_spec {k : ℕ} (hk : c.pipes[c.i]? = some k) (hfit : Fit command)
    (hout : get fds 1 = some (.inherited 1)) (hw : get fds c.pipefd.2 = some (.writeEnd k)) (opens : Mode → Text → Bool) :
    ∃ r, redirectOut c command opens fds = .ok r ∧ AfterOut c command fds r ∧
      r.ioError = (c.i = c.cnt - 1 && missing opens .write command) := by
  have h1w : c.pipefd.2 ≠ 1 := ne_of_get hw hout nofun
  have hmoved : ∀ {start : ℕ} {f : File} {r : Redirect}, Moved 1 start (.inherited 1) f fds r → start = 1 ∨ start = c.pipefd.2 →
      some f = expectedOut c command → AfterOut c command fds r := fun {start f r} hr hstart hexp =>
    ⟨hr.used, hr.resets, hr.openedFd, fun fd hfd => by
      rcases hr.touches fd hfd with h | h | h
      · exact Or.inl h
      · exact hstart.imp (fun hs => h.trans hs) fun hs => Or.inl (h.trans hs)
      · exact Or.inr (Or.inr h), fun _ => hr.std.trans hexp, hr.frame, hr.sub⟩
  unfold redirectOut
  by_cases hlast : c.i = c.cnt - 1
  · have hvalidate := validate_files hfit.1 (dupWithOpen opens) .write ⟨fds, ⟨1, none, some c.pipefd.2⟩, false⟩
    simp only [if_pos hlast]
    refine ⟨_, hvalidate, ?_⟩
    have hexp : expectedOut c command = some (match files .write command with
        | path :: _ => .opened .write path
        | [] => .inherited 1) := by rw [expectedOut, if_pos hlast]
    rcases files_cases .write hfit with hnil | ⟨path, hpath⟩
    · rw [hnil, List.foldl_nil]
      rw [hnil] at hexp
      refine ⟨⟨rfl, .unmoved rfl hout fun hn => h1w (Option.some.inj hn), fun hn => h1w (Option.some.inj hn), ?_,
        fun _ => hout.trans hexp.symm, fun _ _ _ => rfl, Sub.refl _⟩, by simp [missing, hnil]⟩
      rintro fd (hfd | hfd | hfd)
      · exact Or.inl hfd
      · exact absurd hfd nofun
      · exact Or.inr (Or.inl (Option.some.inj hfd).symm)
    · rw [hpath, List.foldl_cons, List.foldl_nil]
      rw [hpath] at hexp
      cases hok : opens .write path with
      | true =>
        refine ⟨hmoved (moved_open 1 hout hok rfl) (Or.inl rfl) hexp.symm, ?_⟩
        simp [missing, hpath, hok, dupWithOpen]
      | false =>
        rw [dupWithOpen_fail hok]
        refine ⟨⟨rfl, .unmoved rfl hout nofun, nofun, ?_, nofun, fun _ _ _ => rfl, Sub.refl _⟩,
          by simp [missing, hpath, hok, hlast]⟩
        rintro fd (hfd | hfd | hfd)
        · exact Or.inl hfd
        · exact absurd hfd nofun
        · exact absurd hfd nofun
  · simp only [if_neg hlast]
    have hexp : expectedOut c command = some (.writeEnd k) := by rw [expectedOut, if_neg hlast, hk, Option.map_some]
    exact ⟨_, rfl, hmoved (moved_dup hout hw h1w) (Or.inr rfl) hexp.symm, by simp [hlast]⟩

/-- `ResetStdIO` puts the file back unless it was not moved and the manager will close it. -/
theorem Resets.get_reset_iff {m : FdManager} {orig : File} (h : Resets orig fds m) :
    get (resetStdio fds m) m.usedStd = some orig ↔ m.openedFd ≠ some m.usedStd := by
  constructor
  · intro hget hopened
    cases h with
    | saved _ ho _ _ hne => exact hne (Option.some.inj (ho.symm.trans hopened))
    | unmoved _ _ hne => exact hne hopened
    | closes hsv _ =>
      obtain ⟨used, saved, opened⟩ := m
      cases hsv
      obtain rfl : opened = some used := hopened
      rw [resetStdio, get_close_self] at hget
      cases hget
  · exact fun hne => h.get_reset.resolve_right fun hn => hne hn.2

section

variable {r w : Redirect}

/-- The two managers touch different descriptors. -/
theorem managers_apart (hr : AfterIn c command fds r) (hw : AfterOut c command r.fds w) {fd : ℕ}
    (hfd : w.manager.Touches fd) : ¬ r.manager.Touches fd := fun hn => by
  obtain ⟨h1, h2, h3⟩ := hr.touches fd hn
  exact (hw.touches fd hfd).elim h1 fun h => h.elim h2 h3

theorem resets_in (hr : AfterIn c command fds r) (hw : AfterOut c command r.fds w) :
    Resets (.inherited 0) w.fds r.manager :=
  hr.resets.congr fun fd hfd => hw.frame fd (hr.touches fd hfd).1 (hr.touches fd hfd).2.2

/-- `ResetStdIO` of both managers, as 0 sees it. -/
theorem stdin_of_resets (hr : AfterIn c command fds r) (hw : AfterOut c command r.fds w) :
    get (resetStdio (resetStdio w.fds r.manager) w.manager) 0 = get (resetStdio w.fds r.manager) r.manager.usedStd := by
  have hzero : ¬ w.manager.Touches 0 := fun hn => managers_apart hr hw hn (Or.inl hr.used.symm)
  rw [get_resetStdio_ne hzero, hr.used]

theorem stdout_of_resets (hr : AfterIn c command fds r) (hw : AfterOut c command r.fds w) :
    get (resetStdio (resetStdio w.fds r.manager) w.manager) 1 = some (.inherited 1) := by
  have hout : Resets (.inherited 1) (resetStdio w.fds r.manager) w.manager :=
    hw.resets.congr fun fd hfd => get_resetStdio_ne (managers_apart hr hw hfd)
  have := hout.get_reset
  rw [hw.used] at this
  exact this.resolve_right fun hn => hw.openedFd hn.2

theorem home_of_resets (hr : AfterIn c command fds r) (hw : AfterOut c command r.fds w) :
    Home (resetStdio (resetStdio w.fds r.manager) w.manager) := by
  refine ⟨?_, stdout_of_resets hr hw⟩
  rw [stdin_of_resets hr hw]
  exact (resets_in hr hw).get_reset.imp_right And.left

end

/-- A child whose `in_manager` has failed has not come to its `out_manager`. -/
theorem afterOut_start {r : Redirect} (h1w : c.pipefd.2 ≠ 1) (hout : get r.fds 1 = some (.inherited 1)) :
    AfterOut c command r.fds ⟨r.fds, ⟨1, none, some c.pipefd.2⟩, true⟩ := by
  refine ⟨rfl, .unmoved rfl hout fun hn => h1w (Option.some.inj hn), fun hn => h1w (Option.some.inj hn), ?_, nofun,
    fun _ _ _ => rfl, Sub.refl _⟩
  rintro fd (hfd | hfd | hfd)
  · exact Or.inl hfd
  · exact absurd hfd nofun
  · exact Or.inr (Or.inl (Option.some.inj hfd).symm)

/-- A child has two managers when it is done; it resets both, or it goes on to `execvp` with them. -/
theorem redirect_managers (h : Stage c fds) (opens : Mode → Text → Bool) :
    ∃ command r w, c.commands[c.i]? = some command ∧ redirectIn c command opens fds = .ok r ∧
      AfterIn c command fds r ∧ AfterOut c command r.fds w ∧
      (c.fails opens = true ∧
          redirect c opens fds = .ok (resetStdio (resetStdio w.fds r.manager) w.manager, .getCmd) ∨
        c.fails opens = false ∧ r.ioError = false ∧ w.ioError = false ∧
          ∃ argv, redirect c opens fds = .ok (w.fds, .exec c r.manager w.manager argv)) := by
  obtain ⟨k, hk⟩ := h.current
  obtain ⟨command, hcommand⟩ := h.run
  have hfit := h.fit command (List.mem_of_getElem? hcommand)
  have hw := h.write k hk
  have h1w : c.pipefd.2 ≠ 1 := ne_of_get hw h.stdout nofun
  have h0w : c.pipefd.2 ≠ 0 := ne_of_get hw h.stdin nofun
  obtain ⟨r, hr, hafter, hin⟩ := redirectIn_spec h hcommand opens
  have hone : get r.fds 1 = some (.inherited 1) := by rw [hafter.frame 1 (by decide) (by rw [h.stdout]; nofun), h.stdout]
  have hwr : get r.fds c.pipefd.2 = some (.writeEnd k) := by rw [hafter.frame _ h0w (by rw [hw]; nofun), hw]
  obtain ⟨w, hwout, hafterw, hout⟩ := redirectOut_spec hk hfit hone hwr opens
  have hfails : c.fails opens = (r.ioError || w.ioError) := by
    unfold Call.fails
    rw [hcommand, Option.any_some, hin, hout]
  have hredirect : redirect c opens fds = redirectIn c command opens fds >>= fun r =>
      if r.ioError then .ok (resetStdio (resetStdio r.fds r.manager) ⟨1, none, some c.pipefd.2⟩, .getCmd)
      else redirectOut c command opens r.fds >>= fun w =>
        if w.ioError then .ok (resetStdio (resetStdio w.fds r.manager) w.manager, .getCmd)
        else getArgv command >>= fun argv => .ok (w.fds, .exec c r.manager w.manager argv) := by
    unfold redirect
    simp only [hcommand]
    rfl
  cases herr : r.ioError with
  | true =>
    refine ⟨command, r, _, hcommand, hr, hafter, afterOut_start h1w hone, Or.inl ⟨by rw [hfails, herr]; rfl, ?_⟩⟩
    rw [hredirect, hr, ok_bind, if_pos herr]
  | false =>
    refine ⟨command, r, w, hcommand, hr, hafter, hafterw, ?_⟩
    have hne : ¬ r.ioError = true := by rw [herr]; exact Bool.false_ne_true
    rw [hredirect, hr, ok_bind, if_neg hne, hwout, ok_bind, hfails, herr, Bool.false_or]
    cases herrw : w.ioError with
    | true => exact Or.inl ⟨rfl, if_pos rfl⟩
    | false =>
      refine Or.inr ⟨rfl, rfl, rfl, filled (args command) 1, ?_⟩
      rw [if_neg Bool.false_ne_true, getArgv_eq hfit.1, ok_bind]

/-- What a child has become behind its redirects. -/
inductive Child (c : Call) (opens : Mode → Text → Bool) (fds : Table File) : PC → Prop
  | failed : c.fails opens = true → Home fds → Child c opens fds .getCmd
  | exec {inManager outManager : FdManager} {argv : Argv} : c.fails opens = false → Wired c fds →
      Home (resetStdio (resetStdio fds inManager) outManager) → Child c opens fds (.exec c inManager outManager argv)

theorem redirect_spec (h : Stage c fds) (opens : Mode → Text → Bool) :
    ∃ fds' pc, redirect c opens fds = .ok (fds', pc) ∧ Sub File.IsOpened fds fds' ∧ Child c opens fds' pc := by
  obtain ⟨command, r, w, hcommand, -, hafter, hafterw, hcases⟩ := redirect_managers h opens
  have hsub : Sub File.IsOpened fds w.fds := hafter.sub.trans hafterw.sub
  have hhome := home_of_resets hafter hafterw
  rcases hcases with ⟨hfails, hredirect⟩ | ⟨hfails, herr, herrw, argv, hredirect⟩
  · exact ⟨_, _, hredirect, (hsub.trans (resetStdio_sub _ _)).trans (resetStdio_sub _ _), .failed hfails hhome⟩
  · refine ⟨_, _, hredirect, hsub, .exec hfails ⟨h.cnt, h.i_lt, h.pipes, fun d hd => ?_, fun d hd => ?_⟩ hhome⟩
    · obtain rfl : command = d := Option.some.inj (hcommand.symm.trans hd)
      rw [hafterw.frame 0 (by decide) (Option.isSome_iff_ne_none.mp hafter.stdin), hafter.expected herr]
    · obtain rfl : command = d := Option.some.inj (hcommand.symm.trans hd)
      exact hafterw.expected herrw

end

end Pipe
end Bash
end OsLabs
