/-
# What a line leaves in a file

A line `cmd > f` opens `f` without `O_TRUNC`, so that `cmd` writes over the start of what is in `f` and the rest stays.
In a pipeline the children come to open their files in any order; only the last one has the file, and the
others write to pipes.

Lines overlap: a child that has failed reads the next line while the other commands of its line still run. What a
program writes and when is the environment's, and so is all else that happens to the files. Files are regular.

Key definitions: `Running`, `Writer`, `Writer.Exact`, `Writer.Fits`, `Writer.Undisturbed`.
Key theorem: `contents_exact`.
-/
import OsLabs.Bash.Files
import OsLabs.Lib.Run

namespace OsLabs
namespace Bash

open Run Files
open Function (update)

variable {N : Type}

/-- The command of a line has been executed, or was not found. -/
def Reply.Ran (reply : Reply) : Prop := reply = .returns commandNf ∨ ∃ image, reply = .becomes image

instance : (reply : Reply) → Decidable reply.Ran
  | .nothing => .isFalse fun h => h.elim nofun fun ⟨_, h⟩ => Reply.noConfusion h
  | .returns message => decidable_of_iff (message = commandNf)
    ⟨fun h => .inl (congrArg _ h), fun h => h.elim Reply.returns.inj fun ⟨_, h⟩ => Reply.noConfusion h⟩
  | .becomes image => .isTrue (.inr ⟨image, rfl⟩)

theorem not_ran_nothing : ¬ Reply.nothing.Ran := by decide

/-! ### The lines of a session -/

/-- A line that is executed, and its last command. -/
structure Running (N : Type) where
  text : Text
  name : Text → N
  /-- The children that have not come to `execvp`. -/
  todo : List ℕ
  /-- What the last command has come to. -/
  reply : Reply
  /-- Where its 1 leads. -/
  out : Option Handle
  /-- What was in the file there. -/
  old : List Byte
  /-- What it has written to 1. -/
  written : List Byte

/-- A line before its children do anything. -/
def Running.start (text : Text) (name : Text → N) (count : ℕ) : Running N :=
  ⟨text, name, List.range count, .nothing, none, [], []⟩

/-- The `i`-th child has come to `execvp`; `o` is what it has opened if it is the last one. -/
def Running.child (r : Running N) (i : ℕ) (reply : Reply) (o : Opening N) (last : ℕ) : Running N :=
  if i = last then
    { r with
      todo := r.todo.erase i
      reply := reply
      out := o.out
      old := (o.out.map fun h => o.fs.data h.ino).getD []
      written := [] }
  else { r with todo := r.todo.erase i }

/-- What the last command has written goes to its 1. -/
def Running.writes (r : Running N) (bytes : List Byte) (fs : Fs N Byte) : Fs N Byte × Running N :=
  match r.out with
  | some h => ((fs.write h bytes).1, { r with out := some (fs.write h bytes).2, written := r.written ++ bytes })
  | none => (fs, { r with written := r.written ++ bytes })

/-- The files, and the lines that are being executed. -/
structure Writing (ι N : Type) where
  fs : Fs N Byte
  lines : ι → Option (Running N)

inductive FileEvent (ι N : Type)
  /-- A shell has read a line. -/
  | line (k : ι) (text : Text) (name : Text → N)
  /-- A child of the line opens its files, and comes to `execvp`. -/
  | child (k : ι) (i : ℕ) (allows : Mode → Text → Bool) (image : Image)
  /-- The last command of the line writes to its standard output. -/
  | write (k : ι) (bytes : List Byte)
  /-- The line completes. -/
  | complete (k : ι)
  /-- All else. -/
  | change (fs : Fs N Byte)

/-- A shell with redirects. -/
structure Writer (N : Type) where
  /-- How many children it forks for a line. -/
  count : Text → ℕ
  child : (Text → N) → (Mode → Text → Bool) → Text → ℕ → Image → Fs N Byte → Except Fault (Reply × Opening N)
  /-- The targets of `>` in a line. -/
  outfiles : Text → List Text
  /-- The command that they are for. -/
  last : Text → ℕ
  total : ∀ {name allows text i image fs}, i < count text → ∃ x, child name allows text i image fs = .ok x
  keeps : ∀ {name allows text i image fs reply o}, child name allows text i image fs = .ok (reply, o) → fs.Keeps o.fs
  opened : ∀ {name allows text image fs reply o f}, child name allows text (last text) image fs = .ok (reply, o) → reply.Ran →
    f ∈ outfiles text → ∃ h, o.out = some h ∧ o.fs.dir (name f) = some h.ino ∧ h.pos = 0

namespace Writer

variable {ι : Type} [DecidableEq ι] (sh : Writer N)

def step (s : Writing ι N) : FileEvent ι N → Except Stop (Writing ι N)
  | .line k text name =>
    match s.lines k with
    | none => .ok { s with lines := update s.lines k (some (.start text name (sh.count text))) }
    | some _ => .error .refused
  | .child k i allows image =>
    match s.lines k with
    | none => .error .refused
    | some r =>
      if i ∈ r.todo then
        match sh.child r.name allows r.text i image s.fs with
        | .error f => .error (.fault f)
        | .ok (reply, o) => .ok ⟨o.fs, update s.lines k (some (r.child i reply o (sh.last r.text)))⟩
      else .error .refused
  | .write k bytes =>
    match s.lines k with
    | none => .error .refused
    | some r =>
      match r.reply with
      | .becomes _ => .ok ⟨(r.writes bytes s.fs).1, update s.lines k (some (r.writes bytes s.fs).2)⟩
      | _ => .error .refused
  | .complete k =>
    match s.lines k with
    | none => .error .refused
    | some r => if r.todo = [] then .ok { s with lines := update s.lines k none } else .error .refused
  | .change fs => .ok { s with fs := fs }

/-- A line that completes leaves in its file what its command has written. -/
def Exact (s : Writing ι N) : FileEvent ι N → Prop
  | .complete k => ∀ r ∈ s.lines k, r.reply.Ran → ∀ f ∈ sh.outfiles r.text, s.fs.read (r.name f) = some r.written
  | _ => True

/-- There was not more in the file. -/
def Fits (s : Writing ι N) : FileEvent ι N → Prop
  | .complete k => ∀ r ∈ s.lines k, r.reply.Ran → ∀ f ∈ sh.outfiles r.text, r.old.length ≤ r.written.length
  | _ => True

/-- Nobody else writes to the file of a line that is being executed, and its name still leads to it. -/
def Undisturbed (s : Writing ι N) : FileEvent ι N → Prop
  | .write k _ => ∀ r ∈ s.lines k, ∀ h ∈ r.out, ∀ j, j ≠ k → ∀ r' ∈ s.lines j, r'.reply.Ran → ∀ h' ∈ r'.out, h'.ino ≠ h.ino
  | .change fs => ∀ k, ∀ r ∈ s.lines k, r.reply.Ran → ∀ h ∈ r.out, fs.data h.ino = s.fs.data h.ino ∧
      ∀ f ∈ sh.outfiles r.text, fs.dir (r.name f) = s.fs.dir (r.name f)
  | _ => True

/-- The children that are still to come are among those that the line forks. -/
def Due (s : Writing ι N) : Prop := ∀ j, ∀ r ∈ s.lines j, ∀ i ∈ r.todo, i < sh.count r.text

/-- A file holds what it had, with what the command has written over its start. -/
def Holds (fs : Fs N Byte) (r : Running N) : Prop :=
  r.reply.Ran → ∀ f ∈ sh.outfiles r.text, ∃ h, r.out = some h ∧ fs.dir (r.name f) = some h.ino ∧ h.pos = r.written.length ∧
    fs.data h.ino = overwrite r.old 0 r.written

section

variable {sh : Writer N} {s s' : Writing ι N} {e : FileEvent ι N} {fs fs' : Fs N Byte} {r : Running N} {k : ι}

/-- What is not written to stays. -/
theorem Holds.congr (h : sh.Holds fs r) (hsame : r.reply.Ran → ∀ x ∈ r.out, fs'.data x.ino = fs.data x.ino ∧
    ∀ f ∈ sh.outfiles r.text, fs'.dir (r.name f) = fs.dir (r.name f)) : sh.Holds fs' r := by
  intro hran f hf
  obtain ⟨x, hx, hdir, hpos, hdata⟩ := h hran f hf
  obtain ⟨hdata', hname⟩ := hsame hran x hx
  exact ⟨x, hx, (hname f hf).trans hdir, hpos, hdata'.trans hdata⟩

theorem Holds.keeps (h : sh.Holds fs r) (hkeeps : fs.Keeps fs') : sh.Holds fs' r := by
  intro hran f hf
  obtain ⟨x, hx, hdir, hpos, hdata⟩ := h hran f hf
  obtain ⟨hdir', hdata'⟩ := hkeeps _ _ hdir
  exact ⟨x, hx, hdir', hpos, hdata'.trans hdata⟩

/-- The last child of a line begins with what it finds in the file. -/
theorem holds_child {allows : Mode → Text → Bool} {i : ℕ} {image : Image} {reply : Reply} {o : Opening N} (h : sh.Holds fs r)
    (hchild : sh.child r.name allows r.text i image fs = .ok (reply, o)) :
    sh.Holds o.fs (r.child i reply o (sh.last r.text)) := by
  unfold Running.child
  split_ifs with hi
  · subst hi
    intro hran f hf
    obtain ⟨x, hx, hdir, hpos⟩ := sh.opened hchild hran hf
    exact ⟨x, hx, hdir, hpos, by simp [hx, overwrite_nil]⟩
  · exact h.keeps (sh.keeps hchild)

/-- What the command writes comes behind what it has written. -/
theorem holds_writes (h : sh.Holds fs r) (bytes : List Byte) : sh.Holds (r.writes bytes fs).1 (r.writes bytes fs).2 := by
  unfold Running.writes
  cases hout : r.out with
  | none =>
    intro hran f hf
    obtain ⟨x, hx, -⟩ := h hran f hf
    exact absurd (hout.symm.trans hx) (Option.some_ne_none x).symm
  | some y =>
    intro hran f hf
    obtain ⟨x, hx, hdir, hpos, hdata⟩ := h hran f hf
    obtain rfl : y = x := Option.some.inj (hout.symm.trans hx)
    refine ⟨_, rfl, hdir, by simp [Fs.write, hpos], ?_⟩
    have hover := @overwrite_append _ r.old r.written bytes 0 (Nat.zero_le _)
    calc (fs.write y bytes).1.data y.ino = overwrite (fs.data y.ino) y.pos bytes := Function.update_self ..
      _ = overwrite (overwrite r.old 0 r.written) (0 + r.written.length) bytes := by rw [hdata, hpos, Nat.zero_add]
      _ = overwrite r.old 0 (r.written ++ bytes) := hover

/-- A line is put where it stands, with the others. -/
theorem forall_update {P : Running N → Prop} {x : Option (Running N)} (hk : ∀ r ∈ x, P r)
    (hother : ∀ j, j ≠ k → ∀ r ∈ s.lines j, P r) : ∀ j, ∀ r ∈ update s.lines k x j, P r := by
  intro j r hr
  by_cases hj : j = k
  · subst hj
    rw [Function.update_self] at hr
    exact hk r hr
  · rw [Function.update_of_ne hj] at hr
    exact hother j hj r hr

/-- A child that has come to `execvp` does not come again. -/
theorem child_due (h : ∀ i ∈ r.todo, i < sh.count r.text) (i : ℕ) (reply : Reply) (o : Opening N) :
    ∀ i' ∈ (r.child i reply o (sh.last r.text)).todo, i' < sh.count (r.child i reply o (sh.last r.text)).text := by
  unfold Running.child
  split_ifs <;> exact fun i' hi' => h i' (List.mem_of_mem_erase hi')

theorem writes_due (h : ∀ i ∈ r.todo, i < sh.count r.text) (bytes : List Byte) (fs : Fs N Byte) :
    ∀ i ∈ (r.writes bytes fs).2.todo, i < sh.count (r.writes bytes fs).2.text := by
  unfold Running.writes
  cases r.out <;> exact h

/-- What the children of a line do is in bounds. -/
theorem step_due (h : sh.Due s) (e : FileEvent ι N) : Sat sh.Due (· = .refused) (sh.step s e) := by
  cases e with
  | line k text name =>
    cases hk : s.lines k with
    | some r =>
      simp only [step, hk]
      exact rfl
    | none =>
      simp only [step, hk]
      refine forall_update (fun r hr i hi => ?_) fun j _ => h j
      obtain rfl := Option.some.inj hr
      exact List.mem_range.mp hi
  | child k i allows image =>
    cases hk : s.lines k with
    | none =>
      simp only [step, hk]
      exact rfl
    | some r =>
      simp only [step, hk]
      split_ifs with hi
      · have htotal : ∃ x, sh.child r.name allows r.text i image s.fs = .ok x := sh.total (h k r hk i hi)
        obtain ⟨⟨reply, o⟩, hchild⟩ := htotal
        rw [hchild]
        refine forall_update (fun r' hr' => ?_) fun j _ => h j
        obtain rfl := Option.some.inj hr'
        exact child_due (h k r hk) i reply o
      · exact rfl
  | write k bytes =>
    cases hk : s.lines k with
    | none =>
      simp only [step, hk]
      exact rfl
    | some r =>
      cases hreply : r.reply with
      | becomes image =>
        simp only [step, hk, hreply]
        refine forall_update (fun r' hr' => ?_) fun j _ => h j
        obtain rfl := Option.some.inj hr'
        exact writes_due (h k r hk) bytes s.fs
      | nothing | returns message =>
        simp only [step, hk, hreply]
        exact rfl
  | complete k =>
    cases hk : s.lines k with
    | none =>
      simp only [step, hk]
      exact rfl
    | some r =>
      simp only [step, hk]
      split_ifs
      · exact forall_update (fun r' hr' => absurd hr' (Option.some_ne_none r').symm) fun j _ => h j
      · exact rfl
  | change fs => exact h

theorem step_holds (h : ∀ j, ∀ r ∈ s.lines j, sh.Holds s.fs r) (hu : sh.Undisturbed s e) (hs : sh.step s e = .ok s') :
    ∀ j, ∀ r ∈ s'.lines j, sh.Holds s'.fs r := by
  cases e with
  | line k text name =>
    simp only [step] at hs
    split at hs <;> cases hs
    refine forall_update (fun r hr hran => ?_) fun j _ => h j
    obtain rfl := Option.some.inj hr
    exact absurd hran not_ran_nothing
  | child k i allows image =>
    cases hk : s.lines k with
    | none => simp [step, hk] at hs
    | some r =>
      simp only [step, hk] at hs
      split_ifs at hs
      cases hchild : sh.child r.name allows r.text i image s.fs with
      | error x => simp [hchild] at hs
      | ok x =>
        simp only [hchild] at hs
        cases hs
        refine forall_update (fun r' hr' => ?_) fun j _ r' hr' => (h j r' hr').keeps (sh.keeps hchild)
        obtain rfl := Option.some.inj hr'
        exact holds_child (h k r hk) hchild
  | write k bytes =>
    cases hk : s.lines k with
    | none => simp [step, hk] at hs
    | some r =>
      cases hreply : r.reply with
      | becomes image =>
        simp only [step, hk, hreply] at hs
        cases hs
        refine forall_update (fun r' hr' => ?_) fun j hj r' hr' => ?_
        · obtain rfl := Option.some.inj hr'
          exact holds_writes (h k r hk) bytes
        · unfold Running.writes
          cases hout : r.out with
          | none => exact h j r' hr'
          | some y =>
            refine (h j r' hr').congr fun hran x hx => ⟨?_, fun _ _ => rfl⟩
            exact Function.update_of_ne (hu r hk y hout j hj r' hr' hran x hx) ..
      | _ => simp [step, hk, hreply] at hs
  | complete k =>
    cases hk : s.lines k with
    | none => simp [step, hk] at hs
    | some r =>
      simp only [step, hk] at hs
      split_ifs at hs
      cases hs
      exact forall_update (fun r' hr' => absurd hr' (Option.some_ne_none r').symm) fun j _ => h j
  | change fs =>
    cases hs
    intro j r hr
    exact (h j r hr).congr (hu j r hr)

omit [DecidableEq ι] in
theorem exact_iff_fits (h : ∀ j, ∀ r ∈ s.lines j, sh.Holds s.fs r) : sh.Exact s e ↔ sh.Fits s e := by
  cases e with
  | complete k =>
    refine forall₂_congr fun r hr => forall_congr' fun hran => forall₂_congr fun f hf => ?_
    obtain ⟨x, -, hdir, -, hdata⟩ := h k r hr hran f hf
    rw [Fs.read, hdir, Option.map_some, Option.some_inj, hdata, overwrite_eq_iff]
  | _ => exact Iff.rfl

end

/-- No run comes to a fault. -/
theorem no_fault (es : List (FileEvent ι N)) (fs : Fs N Byte) :
    Sat (fun _ => True) (· = .refused) (run sh.step ⟨fs, fun _ => none⟩ es) := by
  have hstart : sh.Due (⟨fs, fun _ => none⟩ : Writing ι N) := fun _ r hr => absurd hr (Option.some_ne_none r).symm
  exact (run_sat (fun s e h _ => step_due h e) es hstart (along_true es _)).mono (fun _ _ => trivial) fun _ => id

/-- Whatever the lines do in between. -/
theorem exact_along (es : List (FileEvent ι N)) (fs : Fs N Byte) (hu : Along sh.step sh.Undisturbed ⟨fs, fun _ => none⟩ es) :
    Along sh.step sh.Exact ⟨fs, fun _ => none⟩ es ↔ Along sh.step sh.Fits ⟨fs, fun _ => none⟩ es :=
  along_iff (I := fun s => ∀ j, ∀ r ∈ s.lines j, sh.Holds s.fs r) (fun _ _ _ h hu _ hs => step_holds h hu hs)
    (fun _ _ h _ => exact_iff_fits h) es (fun _ r hr => absurd hr (Option.some_ne_none r).symm) hu

instance [DecidableEq N] (s : Writing ι N) : (e : FileEvent ι N) → Decidable (sh.Exact s e)
  | .complete k => inferInstanceAs (Decidable (∀ r ∈ s.lines k, r.reply.Ran → ∀ f ∈ sh.outfiles r.text,
      s.fs.read (r.name f) = some r.written))
  | .line .. | .child .. | .write .. | .change .. => inferInstanceAs (Decidable True)

instance (s : Writing ι N) : (e : FileEvent ι N) → Decidable (sh.Fits s e)
  | .complete k => inferInstanceAs (Decidable (∀ r ∈ s.lines k, r.reply.Ran → ∀ f ∈ sh.outfiles r.text,
      r.old.length ≤ r.written.length))
  | .line .. | .child .. | .write .. | .change .. => inferInstanceAs (Decidable True)

instance [Fintype ι] (s : Writing ι N) : (e : FileEvent ι N) → Decidable (sh.Undisturbed s e)
  | .write k _ => inferInstanceAs (Decidable (∀ r ∈ s.lines k, ∀ h ∈ r.out, ∀ j, j ≠ k → ∀ r' ∈ s.lines j, r'.reply.Ran →
      ∀ h' ∈ r'.out, h'.ino ≠ h.ino))
  | .change fs => inferInstanceAs (Decidable (∀ k, ∀ r ∈ s.lines k, r.reply.Ran → ∀ h ∈ r.out, fs.data h.ino = s.fs.data h.ino ∧
      ∀ f ∈ sh.outfiles r.text, fs.dir (r.name f) = s.fs.dir (r.name f)))
  | .line .. | .child .. | .complete .. => inferInstanceAs (Decidable True)

end Writer

/-! ### What a shell does -/

variable [DecidableEq N]

/-- The child of a line. One that overruns its `argv` has printed its message, and the files are as the walk has left them. -/
def Io.runChild (name : Text → N) (allows : Mode → Text → Bool) (text : Text) (image : Image) (fs : Fs N Byte) :
    Except Fault (Reply × Opening N) :=
  match execFiles name allows (tokenizerInit text) image fs with
  | .ok (reply, w) => .ok (reply, w.opening)
  | .error _ =>
    (checkIOAndOpenFiles (dup name allows) (tokenizerInit text) ⟨⟨fs, false, none⟩, none, none⟩).map fun x =>
      (.returns commandNf, (undo name x.2).opening)

namespace Pipe

def count (text : Text) : ℕ :=
  match exec (tokenizerInit text) with
  | .ok (.launch _ cnt) => cnt
  | _ => 0

/-- The child of the `i`-th command of a line. -/
def runChild (name : Text → N) (allows : Mode → Text → Bool) (text : Text) (i : ℕ) (image : Image) (fs : Fs N Byte) :
    Except Fault (Reply × Opening N) :=
  match exec (tokenizerInit text) with
  | .ok (.launch commands cnt) =>
    match commands[i]? with
    | some command => childFiles name allows cnt i command image fs
    | none => .error .bounds
  | _ => .error .bounds

end Pipe

/-! ### What a child has opened -/

section

variable {name : Text → N} {allows : Mode → Text → Bool} {command : List Token} {o o' : Opening N} {fs : Fs N Byte}
  {image : Image} {reply : Reply} {cnt i : ℕ}

theorem writes_append (xs ys : List (Mode × Text)) : writes (xs ++ ys) = writes xs ++ writes ys := by
  rw [writes, List.filter_append, List.map_append]
  rfl

theorem writes_read (paths : List Text) : writes (paths.map (Mode.read, ·)) = [] := by
  induction paths with
  | nil => rfl
  | cons path paths ih => exact ih

theorem writes_write (paths : List Text) : writes (paths.map (Mode.write, ·)) = paths := by
  induction paths with
  | nil => rfl
  | cons path paths ih => exact congrArg (path :: ·) ih

/-- A message other than that no command was found. -/
theorem not_ran {message : Text} (hne : message ≠ commandNf) : ¬ (Reply.returns message).Ran := by
  rintro (heq | ⟨_, heq⟩)
  · exact hne (Reply.returns.inj heq)
  · cases heq

theorem not_ran_ioError : ¬ (Reply.returns ioErrorText).Ran := not_ran (by decide)

/-- A command that has been executed has the target of its `>`. -/
theorem Opened.has {xs : List (Mode × Text)} {f : Text} (h : Opened name allows xs image fs reply o) (hran : reply.Ran)
    (hf : writes xs = [f]) : ∃ x, o.out = some x ∧ o.fs.dir (name f) = some x.ino ∧ x.pos = 0 := by
  obtain ⟨hopening, ⟨-, rfl⟩ | ⟨hok, -⟩⟩ := h
  · exact absurd hran not_ran_ioError
  obtain ⟨hfs, hout⟩ := openAll_write name allows xs ⟨fs, false, none⟩ hf
  rw [← hopening] at hfs hout
  obtain ⟨x, hopen, hx⟩ := hout hok
  rw [← hfs] at hopen
  obtain ⟨hdir, hpos, -⟩ := Fs.opened hopen rfl
  exact ⟨x, hx, hdir, hpos⟩

/-- No redirect takes anything away. -/
theorem openAll_keeps (name : Text → N) (allows : Mode → Text → Bool) : ∀ (xs : List (Mode × Text)) (o : Opening N),
    o.fs.Keeps (openAll name allows xs o).fs
  | [], o => .refl o.fs
  | (.read, path) :: xs, o => by
    have h := openAll_keeps name allows xs (openPath name allows o .read path)
    rwa [(openPath_read name allows o path).1] at h
  | (.write, path) :: xs, o => by
    have hpath : o.fs.Keeps (openPath name allows o .write path).fs := by
      rw [(openPath_write name allows o path).1, created]
      split_ifs with hnew
      · exact Fs.keeps_create hnew.2
      · exact .refl o.fs
    exact hpath.trans (openAll_keeps name allows xs _)

namespace Pipe

theorem dupFile_foldl (name : Text → N) (allows : Mode → Text → Bool) (mode : Mode) (paths : List Text) (w : Walk N) :
    (paths.foldl (fun w path => dupFile name allows w mode path) w).opening =
      openAll name allows (paths.map (mode, ·)) w.opening := by
  induction paths generalizing w with
  | nil => rfl
  | cons path paths ih => exact ih (dupFile name allows w mode path)

/-- Nothing is undone. -/
theorem openFiles_eq (h : Targeted command) (mode : Mode) (ho : o.ioError = false) :
    openFiles name allows mode command o =
      .ok (openAll name allows ((behind mode.type (runOf command)).map (mode, ·)) o) := by
  have hwalk := walk_eq h (dupFile name allows) mode ⟨o, none⟩
  have hopening := dupFile_foldl name allows mode (behind mode.type (runOf command)) ⟨o, none⟩
  unfold openFiles
  rw [ho, hwalk]
  generalize (behind mode.type (runOf command)).foldl (fun w path => dupFile name allows w mode path) ⟨o, none⟩ = w at hopening
  rw [← hopening]
  obtain ⟨⟨fs, ioError, out⟩, path⟩ := w
  cases ioError <;> cases path <;> rfl

/-- The redirects of one kind, in the child they are for. -/
def opensOf (mode : Mode) (here : Prop) [Decidable here] (command : List Token) : List (Mode × Text) :=
  if here then (behind mode.type (runOf command)).map (mode, ·) else []

theorem writes_opensOf_read (here : Prop) [Decidable here] (command : List Token) : writes (opensOf .read here command) = [] := by
  unfold opensOf
  split_ifs
  · exact writes_read _
  · rfl

theorem writes_opensOf_write {here : Prop} [Decidable here] (hhere : here) (command : List Token) :
    writes (opensOf .write here command) = behind .outfile (runOf command) := by
  rw [opensOf, if_pos hhere]
  exact writes_write _

theorem openHere_eq (h : Targeted command) (mode : Mode) (here : Prop) [Decidable here] (ho : o.ioError = false) :
    openHere name allows here mode command o = .ok (openAll name allows (opensOf mode here command) o) := by
  unfold openHere opensOf
  split_ifs
  · exact openFiles_eq h mode ho
  · rfl

theorem childFiles_eq (h : Targeted command) : childFiles name allows cnt i command image fs =
    let o := openAll name allows (opensOf .read (i = 0) command) ⟨fs, false, none⟩
    if o.ioError then .ok (.returns ioErrorText, o)
    else
      let o := openAll name allows (opensOf .write (i = cnt - 1) command) o
      if o.ioError then .ok (.returns ioErrorText, o)
      else if image = .failed then .ok (.returns commandNf, o)
      else .ok (.becomes image, o) := by
  have hargc : getArgc command = .ok (args command).length := by
    rw [getArgc, argcLoop_eq h, Nat.zero_add]
  have hfree : freeArgv (filled (args command) 1) ((args command).length + 1) = .ok () := by
    rw [freeArgv, length_filled, if_pos le_rfl]
  unfold childFiles
  rw [openHere_eq h .read (i = 0) rfl, ok_bind]
  dsimp only
  by_cases hread : (openAll name allows (opensOf .read (i = 0) command) ⟨fs, false, none⟩).ioError = true
  · rw [if_pos hread, if_pos hread]
    rfl
  rw [if_neg hread, if_neg hread, openHere_eq h .write (i = cnt - 1) (Bool.eq_false_of_not_eq_true hread), ok_bind,
    getArgv_eq h, ok_bind, hargc, ok_bind, hfree]
  split_ifs <;> rfl

theorem childFiles_keeps (h : Targeted command) (hchild : childFiles name allows cnt i command image fs = .ok (reply, o)) :
    fs.Keeps o.fs := by
  have hread := openAll_keeps name allows (opensOf .read (i = 0) command) ⟨fs, false, none⟩
  have hwrite := hread.trans (openAll_keeps name allows (opensOf .write (i = cnt - 1) command) _)
  rw [childFiles_eq h] at hchild
  dsimp only at hchild
  split_ifs at hchild <;> cases hchild
  · exact hread
  · exact hwrite
  · exact hwrite
  · exact hwrite

theorem childFiles_opened (h : Targeted command) (hran : reply.Ran)
    (hchild : childFiles name allows cnt i command image fs = .ok (reply, o)) :
    Opened name allows (opensOf .read (i = 0) command ++ opensOf .write (i = cnt - 1) command) image fs reply o := by
  have happ : openAll name allows (opensOf .read (i = 0) command ++ opensOf .write (i = cnt - 1) command) ⟨fs, false, none⟩ =
      openAll name allows (opensOf .write (i = cnt - 1) command)
        (openAll name allows (opensOf .read (i = 0) command) ⟨fs, false, none⟩) := List.foldl_append
  rw [childFiles_eq h] at hchild
  dsimp only at hchild
  split_ifs at hchild with hread hwrite himage
  · cases hchild
    exact absurd hran not_ran_ioError
  · cases hchild
    exact absurd hran not_ran_ioError
  · cases hchild
    exact ⟨happ.symm, Or.inr ⟨Bool.eq_false_of_not_eq_true hwrite, (if_pos himage).symm⟩⟩
  · cases hchild
    exact ⟨happ.symm, Or.inr ⟨Bool.eq_false_of_not_eq_true hwrite, (if_neg himage).symm⟩⟩

end Pipe

end

/-! ### What a line has done -/

section

theorem eq_singleton_of_mem {α : Type} {x : α} : ∀ {xs : List α}, x ∈ xs → xs.length ≤ 1 → xs = [x]
  | [_], h, _ => congrArg ([·]) (List.mem_singleton.mp h).symm
  | _ :: _ :: _, _, h => absurd h (by simp)

variable {name : Text → N} {allows : Mode → Text → Bool} {text : Text} {image : Image} {fs : Fs N Byte} {reply : Reply}
  {o : Opening N} {f : Text} {i : ℕ}

namespace Io

/-- A child with a line that it does not refuse. -/
theorem child_opened (hcheck : checkSyntax (tokenizerInit text) = false) (hnil : (tokenizerInit text).head ≠ [])
    (h : runChild name allows text image fs = .ok (reply, o)) :
    Opened name allows (targets (tokenizerInit text).head) image fs reply o := by
  have hline : tokenizerInit text = ⟨(tokenizerInit text).head.length, (tokenizerInit text).head⟩ := rfl
  have haccepted : execFiles name allows (tokenizerInit text) image fs = _ :=
    execWith_accepted hnil (no_pipe text) hcheck (dup name allows) (undo name) (·.opening.ioError) ⟨⟨fs, false, none⟩, none, none⟩
  have hopening := dup_foldl name allows (targets (tokenizerInit text).head) ⟨⟨fs, false, none⟩, none, none⟩
  unfold runChild at h
  cases hfiles : execFiles name allows (tokenizerInit text) image fs with
  | ok x =>
    rw [hfiles] at h
    cases h
    exact execFiles_opened hcheck hnil hfiles
  | error x =>
    have hopen := openFiles_eq (no_pipe text) hcheck (dup name allows) ⟨⟨fs, false, none⟩, none, none⟩
    rw [← hline] at hopen
    rw [hfiles, hopen] at h
    cases h
    rw [hfiles, undo_eq] at haccepted
    dsimp only at haccepted
    rw [undo_eq]
    refine ⟨hopening, .inr ?_⟩
    split_ifs at haccepted with hfail himage
    exact ⟨Bool.eq_false_of_not_eq_true hfail, (if_pos himage).symm⟩

/-- And with any other. -/
theorem child_refused (h : checkSyntax (tokenizerInit text) = true ∨ (tokenizerInit text).head = []) :
    runChild name allows text image fs = .ok (if (tokenizerInit text).head = [] then .nothing else .returns syntaxErrorText,
      ⟨fs, false, none⟩) := by
  unfold runChild execFiles execWith
  by_cases hnil : (tokenizerInit text).head = []
  · have hzero : (tokenizerInit text).tokenCount = 0 := List.length_eq_zero_iff.mpr hnil
    rw [if_pos hzero, if_pos hnil]
    rfl
  · have hcount : ¬ (tokenizerInit text).tokenCount = 0 := length_ne_zero hnil
    rw [if_neg hcount, if_pos (h.resolve_right hnil), if_neg hnil]
    rfl

theorem child_cases (text : Text) : (checkSyntax (tokenizerInit text) = true ∨ (tokenizerInit text).head = []) ∨
    checkSyntax (tokenizerInit text) = false ∧ (tokenizerInit text).head ≠ [] := by
  by_cases hnil : (tokenizerInit text).head = []
  · exact .inl (.inr hnil)
  · cases hcheck : checkSyntax (tokenizerInit text) with
    | true => exact .inl (.inl rfl)
    | false => exact .inr ⟨rfl, hnil⟩

theorem child_total (name : Text → N) (allows : Mode → Text → Bool) (text : Text) (image : Image) (fs : Fs N Byte) :
    ∃ x, runChild name allows text image fs = .ok x := by
  rcases child_cases text with hrefused | ⟨hcheck, hnil⟩
  · exact ⟨_, child_refused hrefused⟩
  · have hopen := openFiles_eq (no_pipe text) hcheck (dup name allows) ⟨⟨fs, false, none⟩, none, none⟩
    have hline : tokenizerInit text = ⟨(tokenizerInit text).head.length, (tokenizerInit text).head⟩ := rfl
    rw [← hline] at hopen
    unfold runChild
    rw [hopen]
    cases execFiles name allows (tokenizerInit text) image fs with
    | ok x => exact ⟨_, rfl⟩
    | error x => exact ⟨_, rfl⟩

theorem child_keeps (h : runChild name allows text image fs = .ok (reply, o)) : fs.Keeps o.fs := by
  rcases child_cases text with hrefused | ⟨hcheck, hnil⟩
  · rw [child_refused hrefused] at h
    cases h
    exact .refl fs
  · rw [(child_opened hcheck hnil h).opening]
    exact openAll_keeps name allows _ ⟨fs, false, none⟩

theorem child_has (h : runChild name allows text image fs = .ok (reply, o)) (hran : reply.Ran)
    (hf : f ∈ behind .outfile (tokenizerInit text).head) : ∃ x, o.out = some x ∧ o.fs.dir (name f) = some x.ino ∧ x.pos = 0 := by
  rcases child_cases text with hrefused | ⟨hcheck, hnil⟩
  · rw [child_refused hrefused] at h
    cases h
    split_ifs at hran
    · exact absurd hran (by decide)
    · exact absurd hran (by decide)
  · obtain ⟨hwrites, hle⟩ := writes_line hcheck
    have hone : writes (targets (tokenizerInit text).head) = [f] := by
      rw [hwrites]
      exact eq_singleton_of_mem hf hle
    exact (child_opened hcheck hnil h).has hran hone

end Io

namespace Pipe

/-- The targets of `>` in the last command. -/
def outfiles (text : Text) : List Text := ((runs (tokenizerInit text).head).getLast?.map (behind .outfile)).getD []

theorem child_spec (h : runChild name allows text i image fs = .ok (reply, o)) : ∃ commands cnt command,
    exec (tokenizerInit text) = .ok (.launch commands cnt) ∧ commands[i]? = some command ∧ Fit command ∧
      childFiles name allows cnt i command image fs = .ok (reply, o) := by
  unfold runChild at h
  split at h
  · rename_i commands cnt hexec
    split at h
    · rename_i command hcommand
      exact ⟨commands, cnt, command, hexec, hcommand, (fit_of_launch hexec).2.2 command (List.mem_of_getElem? hcommand), h⟩
    · cases h
  · cases h

theorem child_total (name : Text → N) (allows : Mode → Text → Bool) (image : Image) (fs : Fs N Byte) (h : i < count text) :
    ∃ x, runChild name allows text i image fs = .ok x := by
  unfold count at h
  split at h
  · rename_i commands cnt hexec
    obtain ⟨rfl, -, hfit⟩ := fit_of_launch hexec
    have hcommand : commands[i]? = some commands[i] := List.getElem?_eq_getElem h
    unfold runChild
    simp only [hexec, hcommand]
    rw [childFiles_eq (hfit _ (List.getElem_mem h)).1]
    dsimp only
    split_ifs <;> exact ⟨_, rfl⟩
  · exact absurd h (Nat.not_lt_zero i)

theorem child_has (h : runChild name allows text (count text - 1) image fs = .ok (reply, o)) (hran : reply.Ran)
    (hf : f ∈ outfiles text) : ∃ x, o.out = some x ∧ o.fs.dir (name f) = some x.ino ∧ x.pos = 0 := by
  obtain ⟨commands, cnt, command, hexec, hcommand, ⟨htargeted, hle⟩, hchild⟩ := child_spec h
  have hcount : count text = cnt := by rw [count, hexec]
  obtain ⟨hruns, hcnt⟩ := runs_of_launch hexec
  rw [hcount] at hcommand hchild
  have hlast : (runs (tokenizerInit text).head).getLast? = some (runOf command) := by
    rw [List.getLast?_eq_getElem?, ← hcnt, ← hruns, List.getElem?_map, hcommand, Option.map_some]
  have hone : behind .outfile (runOf command) = [f] := by
    rw [outfiles, hlast, Option.map_some, Option.getD_some] at hf
    have hle := hle .write
    rw [files_eq_behind .write htargeted] at hle
    exact eq_singleton_of_mem hf hle
  have hwrites : writes (opensOf .read (cnt - 1 = 0) command ++ opensOf .write (cnt - 1 = cnt - 1) command) = [f] := by
    rw [writes_append, writes_opensOf_read, List.nil_append, writes_opensOf_write rfl, hone]
  exact (childFiles_opened htargeted hran hchild).has hran hwrites

end Pipe

end

def Io.writer : Writer N where
  count text := if (tokenizerInit text).head = [] then 0 else 1
  child name allows text _ image fs := runChild name allows text image fs
  outfiles text := behind .outfile (tokenizerInit text).head
  last _ := 0
  total _ := child_total _ _ _ _ _
  keeps h := child_keeps h
  opened h hran hf := child_has h hran hf

def Pipe.writer : Writer N where
  count := count
  child := runChild
  outfiles := outfiles
  last text := count text - 1
  total h := child_total _ _ _ _ h
  keeps h := by
    obtain ⟨_, _, _, _, _, hfit, hchild⟩ := child_spec h
    exact childFiles_keeps hfit.1 hchild
  opened h hran hf := child_has h hran hf

/-- **The contents of a file.** No run of `io` or `pipe` comes to a fault; and in every one, however its lines overlap, in which nobody
else writes to the file of a line that is being executed, each line leaves in the target of its `>` what its last command has
written if and only if each of them has found the file missing or not longer than that. -/
theorem contents_exact {ι : Type} [DecidableEq ι] (es : List (FileEvent ι N)) (fs : Fs N Byte) :
    (Sat (fun _ => True) (· = .refused) (run Io.writer.step ⟨fs, fun _ => none⟩ es) ∧
      (Along Io.writer.step Io.writer.Undisturbed ⟨fs, fun _ => none⟩ es →
        (Along Io.writer.step Io.writer.Exact ⟨fs, fun _ => none⟩ es ↔ Along Io.writer.step Io.writer.Fits ⟨fs, fun _ => none⟩ es))) ∧
    Sat (fun _ => True) (· = .refused) (run Pipe.writer.step ⟨fs, fun _ => none⟩ es) ∧
      (Along Pipe.writer.step Pipe.writer.Undisturbed ⟨fs, fun _ => none⟩ es →
        (Along Pipe.writer.step Pipe.writer.Exact ⟨fs, fun _ => none⟩ es ↔
          Along Pipe.writer.step Pipe.writer.Fits ⟨fs, fun _ => none⟩ es)) :=
  ⟨⟨Io.writer.no_fault es fs, Io.writer.exact_along es fs⟩, Pipe.writer.no_fault es fs, Pipe.writer.exact_along es fs⟩

/-- A program writes `output`. -/
def puts (k : Bool) (output : Text) : FileEvent Bool Text := .write k (output.map fun c => BitVec.ofNat 8 c.toNat)

/-- A shell reads a line, and its only child comes to `execvp`. -/
def enters (k : Bool) (text : Text) : List (FileEvent Bool Text) := [.line k text id, .child k 0 (fun _ _ => true) .program]

/-- `echo` writes while `cat` still reads. -/
def overlap : List (FileEvent Bool Text) :=
  enters false "cat > f\n".toList ++ enters true "echo a > g\n".toList ++
    [puts false "b\n".toList, puts true "a\n".toList, .complete true] ++
    enters true "echo hello > g\n".toList ++ [puts true "hello\n".toList, .complete true, .complete false]

theorem contents_exact_overlap :
    Along Io.writer.step Io.writer.Exact ⟨Fs.empty, fun _ => none⟩ overlap ∧
    Along Pipe.writer.step Pipe.writer.Exact ⟨Fs.empty, fun _ => none⟩ overlap := by
  have h := contents_exact overlap Fs.empty
  exact ⟨(h.1.2 (by decide +kernel)).mpr (by decide +kernel), (h.2.2 (by decide +kernel)).mpr (by decide +kernel)⟩

/-- `echo` to `f`, of five letters and then of one. -/
def shorter : List (FileEvent Bool Text) :=
  enters false "echo hello > f\n".toList ++ [puts false "hello\n".toList, .complete false] ++
    enters false "echo a > f\n".toList ++ [puts false "a\n".toList, .complete false]

theorem contents_longer :
    ¬ Along Io.writer.step Io.writer.Exact ⟨Fs.empty, fun _ => none⟩ shorter ∧
    ¬ Along Pipe.writer.step Pipe.writer.Exact ⟨Fs.empty, fun _ => none⟩ shorter := by
  constructor <;> decide +kernel

end Bash
end OsLabs
