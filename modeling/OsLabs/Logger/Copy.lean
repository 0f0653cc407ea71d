/-
# What comes to the log

Without a signal there is no rotation, and the log gets the chunks of the stream one behind the other, each
of them as the string that `fputs` sees: up to its first NUL. So the log gets the stream if there is no NUL in it, and
only then.

Key definition: `Copying`.
Key theorem: `log_is_stream`.
-/
import OsLabs.Logger.Collect

namespace OsLabs
namespace Logger

open Run
open Function (update)

/-! ### Strings -/

theorem zero_notMem_cstring (s : List Byte) : (0 : Byte) ∉ cstring s := fun h => by
  simpa using List.mem_takeWhile_imp h

/-- What `fputs` writes of the chunks. -/
def written (bs : List (List Byte)) : List Byte := (bs.map cstring).flatten

@[simp] theorem written_nil : written [] = [] := rfl

@[simp] theorem written_cons (b : List Byte) (bs : List (List Byte)) : written (b :: bs) = cstring b ++ written bs := rfl

theorem written_eq_iff (bs : List (List Byte)) : written bs = bs.flatten ↔ (0 : Byte) ∉ bs.flatten := by
  constructor
  · intro h hmem
    rw [← h] at hmem
    obtain ⟨c, hc, hzero⟩ := List.mem_flatten.mp hmem
    obtain ⟨b, -, rfl⟩ := List.mem_map.mp hc
    exact zero_notMem_cstring b hzero
  · intro h
    have hkeep : ∀ b ∈ bs, cstring b = id b := fun b hb => cstring_eq fun hn => h (List.mem_flatten.mpr ⟨b, hb, hn⟩)
    rw [written, List.map_congr_left hkeep, List.map_id]

/-! ### Without a signal -/

/-- Where the program is without a rotation, once the log is open. -/
def PC.copies : PC → Prop
  | .reading | .check _ | .puts _ | .closing | .done => True
  | _ => False

/-- The log is open; what has come to it, with its buffer, and what the rest of the stream will bring. -/
structure Copying (f : Path) (old stream : List Byte) (s : State) : Prop where
  named : s.fs.dir (entry f) = some s.log
  account : s.fs.data s.log ++ s.buf ++ written (pending s.pc ++ chunks s.input) = old ++ written (chunks stream)
  quiet : s.needRotate = false
  place : s.pc.copies
  ended : s.pc = .closing ∨ s.pc = .done → s.input = []
  closed : s.pc = .done → s.buf = []

/-- The log has not been opened yet, or it is being written. -/
inductive Calm (f : Path) (fs : Fs) (stream : List Byte) (s : State) : Prop
  | waits (hpc : s.pc = .start ∨ s.pc = .opening) (hfs : s.fs = fs) (hinput : s.input = stream) (hbuf : s.buf = [])
      (hquiet : s.needRotate = false)
  | copies (h : Copying f ((fs.read f).getD []) stream s)

/-- How many steps of the program are left. -/
def left (s : State) : ℕ :=
  match s.pc with
  | .start => 3 * (chunks s.input).length + 4
  | .opening => 3 * (chunks s.input).length + 3
  | .reading => 3 * (chunks s.input).length + 2
  | .check _ => 3 * (chunks s.input).length + 4
  | .puts _ => 3 * (chunks s.input).length + 3
  | .closing => 1
  | _ => 0

section

variable {f : Path} {fs : Fs} {old stream : List Byte} {s : State}

theorem init_calm (f : Path) (fs : Fs) (stream : List Byte) : Calm f fs stream (init fs stream) :=
  .waits (Or.inl rfl) rfl rfl rfl rfl

/-- The `FILE` writes to the inode that the log's name has, and what the buffer loses the file gets. -/
theorem Copying.flush (h : Copying f old stream s) (n : ℕ) :
    Copying f old stream { s with fs := s.fs.append s.log (s.buf.take n), buf := s.buf.drop n } := by
  refine ⟨h.named, ?_, h.quiet, h.place, h.ended, fun hpc => ?_⟩
  · show update s.fs.data s.log (s.fs.data s.log ++ s.buf.take n) s.log ++ s.buf.drop n ++ _ = _
    rw [Function.update_self, List.append_assoc (s.fs.data s.log), List.take_append_drop]
    exact h.account
  · rw [h.closed hpc]
    exact List.drop_nil

theorem Copying.fclose (h : Copying f old stream s) :
    Copying f old stream { s with fs := s.fs.append s.log s.buf, buf := [] } := by
  have hflush := h.flush s.buf.length
  rwa [List.take_length, List.drop_length] at hflush

/-- A step that only goes on. -/
theorem Copying.goto (h : Copying f old stream s) {pc : PC} (hpending : pending pc = pending s.pc) (hplace : pc.copies)
    (hended : pc = .closing ∨ pc = .done → s.input = []) (hclosed : pc = .done → s.buf = []) :
    Copying f old stream { s with pc := pc } :=
  ⟨h.named, by simpa only [hpending] using h.account, h.quiet, hplace, hended, hclosed⟩

theorem Copying.gets (h : Copying f old stream s) (hpc : s.pc = .reading) (hinput : s.input ≠ []) :
    Copying f old stream { s with input := (fgets ROOM s.input).2, pc := .check (fgets ROOM s.input).1 } := by
  have haccount := h.account
  rw [hpc, chunks_cons hinput] at haccount
  exact ⟨h.named, haccount, h.quiet, trivial, by simp, by simp⟩

theorem Copying.puts (h : Copying f old stream s) {b : List Byte} (hpc : s.pc = .puts b) (track : List (List (List Byte))) :
    Copying f old stream { s with buf := s.buf ++ cstring b, track := track, pc := .reading } := by
  have haccount := h.account
  rw [hpc] at haccount
  refine ⟨h.named, ?_, h.quiet, trivial, by simp, by simp⟩
  rw [← haccount]
  simp [pending]

theorem Copying.open (hfs : s.fs = fs) (hinput : s.input = stream) (hbuf : s.buf = []) (hquiet : s.needRotate = false) :
    Copying f ((fs.read f).getD []) stream { s with
      fs := (s.fs.fopen f).1, log := (s.fs.fopen f).2, pc := .reading } := by
  have hread : fs.read f = (fs.dir (entry f)).map fs.data := rfl
  have hopen : (fs.fopen f).1.dir (entry f) = some (fs.fopen f).2 ∧
      (fs.fopen f).1.data (fs.fopen f).2 = (fs.read f).getD [] := by
    rw [hread]
    cases hdir : fs.dir (entry f) with
    | some i =>
      rw [Fs.fopen_some hdir]
      exact ⟨hdir, rfl⟩
    | none =>
      rw [Fs.fopen_none hdir]
      exact ⟨Function.update_self _ _ _, Function.update_self _ _ _⟩
  rw [hfs]
  refine ⟨hopen.1, ?_, hquiet, trivial, by simp, by simp⟩
  show (fs.fopen f).1.data (fs.fopen f).2 ++ s.buf ++ written (chunks s.input) = _
  rw [hopen.2, hbuf, hinput, List.append_nil]

/-- A step of the program before the end: there is one less left. -/
theorem Calm.runStep_left (h : Calm f fs stream s) (hpc : s.pc ≠ .done) :
    Sat (fun s' => Calm f fs stream s' ∧ left s = left s' + 1) (fun _ => False) (runStep f s) := by
  cases h with
  | waits hwait hfs hinput hbuf hquiet =>
    rcases hwait with hwait | hwait
    · simp only [runStep, hwait]
      exact ⟨.waits (Or.inr rfl) hfs hinput hbuf hquiet, by simp [left, hwait]⟩
    · simp only [runStep, hwait]
      exact ⟨.copies (.open hfs hinput hbuf hquiet), by simp [left, hwait]⟩
  | copies h =>
    have hplace := h.place
    cases hat : s.pc with
    | reading =>
      simp only [runStep, hat]
      split_ifs with hinput
      · exact ⟨.copies (h.goto (by rw [hat]; rfl) trivial (fun _ => hinput) (by simp)), by simp [left, hat, hinput, chunks_nil]⟩
      · refine ⟨.copies (h.gets hat hinput), ?_⟩
        simp only [left, hat, chunks_cons hinput, List.length_cons]
        omega
    | check b =>
      simp only [runStep, hat]
      rw [if_neg (by rw [h.quiet]; exact Bool.false_ne_true)]
      exact ⟨.copies (h.goto (by rw [hat]; rfl) trivial (by simp) (by simp)), by simp [left, hat]⟩
    | puts b =>
      simp only [runStep, hat]
      exact ⟨.copies (h.puts hat _), by simp [left, hat]⟩
    | closing =>
      simp only [runStep, hat]
      exact ⟨.copies (h.fclose.goto (by rw [hat]; rfl) trivial (fun _ => h.ended (Or.inl hat)) fun _ => rfl),
        by simp [left, hat]⟩
    | done => exact absurd hat hpc
    | start | opening | shift | close | reopen | clear | killed =>
      rw [hat] at hplace
      exact hplace.elim

theorem Calm.flush (h : Calm f fs stream s) (n : ℕ) : Sat (Calm f fs stream) (fun x => x = .exited) (step f s (.flush n)) := by
  cases h with
  | waits hwait hfs hinput hbuf hquiet =>
    have hsame : { s with fs := s.fs.append s.log (s.buf.take n), buf := s.buf.drop n } = s := by
      rw [hbuf, List.take_nil, List.drop_nil, Fs.append, List.append_nil, Function.update_eq_self]
      show { s with buf := [] } = s
      rw [← hbuf]
    have hstep : step f s (.flush n) = .ok { s with fs := s.fs.append s.log (s.buf.take n), buf := s.buf.drop n } := by
      rcases hwait with hwait | hwait <;> simp only [step, hwait]
    rw [hstep, hsame]
    exact .waits hwait hfs hinput hbuf hquiet
  | copies h =>
    simp only [step]
    split
    · rfl
    · rfl
    · exact .copies (h.flush n)

theorem Calm.step_run (h : Calm f fs stream s) : Sat (Calm f fs stream) (fun x => x = .exited) (step f s .run) := by
  by_cases hpc : s.pc = .done
  · simp only [step, runStep, hpc]
    rfl
  · exact (h.runStep_left hpc).mono (fun _ hs => hs.1) fun _ hx => hx.elim

/-- The program goes on to its end. -/
theorem Calm.ends (h : Calm f fs stream s) :
    Sat (fun s' => s'.pc = .done) (fun _ => False) (run (step f) s (List.replicate (left s) .run)) := by
  induction hn : left s generalizing s with
  | zero =>
    show s.pc = .done
    by_contra hpc
    have hrun := h.runStep_left hpc
    cases hs : runStep f s with
    | ok s' =>
      rw [hs] at hrun
      have := hrun.2
      omega
    | error x => rwa [hs] at hrun
  | succ n ih =>
    have hpc : s.pc ≠ .done := fun hdone => by simp [left, hdone] at hn
    have hrun := h.runStep_left hpc
    cases hs : runStep f s with
    | ok s' =>
      rw [hs] at hrun
      rw [List.replicate_succ, run_cons_ok _ (show step f s .run = .ok s' from hs)]
      exact ih hrun.1 (Nat.succ.inj (hn.symm.trans hrun.2)).symm
    | error x => rw [hs] at hrun; exact hrun.elim

/-- What the log holds at the end. -/
theorem Copying.finished (h : Copying f old stream s) (hpc : s.pc = .done) :
    s.fs.read f = some (old ++ written (chunks stream)) := by
  have haccount := h.account
  rw [hpc, h.ended (Or.inr hpc), h.closed hpc, chunks_nil, List.append_nil] at haccount
  rw [Fs.read, Files.Fs.read, h.named, ← haccount]
  simp [pending]

end

/-- **The log is the stream.** Without a signal, and whenever the buffer is flushed: from everywhere the program goes on to
its end, and the log has got the bytes of the stream exactly if none of them is a NUL. -/
theorem log_is_stream (f : Path) (fs : Fs) (stream : List Byte) (es : List Event) (hquiet : ∀ e ∈ es, e ≠ .hup) (s : State)
    (hrun : run (step f) (init fs stream) es = .ok s) :
    (∃ n, Sat (fun s' => s'.pc = .done) (fun _ => False) (run (step f) s (List.replicate n .run))) ∧
      (s.pc = .done → (s.fs.read f = some ((fs.read f).getD [] ++ stream) ↔ (0 : Byte) ∉ stream)) := by
  have hcalm : Calm f fs stream s := by
    refine run_inv (P := fun _ e => e ≠ .hup) (fun s e s' h he hs => ?_) es (init_calm f fs stream) (along_of_mem hquiet) hrun
    have hnext : Sat (Calm f fs stream) (fun x => x = .exited) (step f s e) := by
      cases e with
      | run => exact h.step_run
      | hup => exact absurd rfl he
      | flush n => exact h.flush n
    rwa [hs] at hnext
  refine ⟨⟨left s, hcalm.ends⟩, fun hpc => ?_⟩
  cases hcalm with
  | waits hwait => rcases hwait with hwait | hwait <;> rw [hpc] at hwait <;> cases hwait
  | copies h =>
    have hwritten := written_eq_iff (chunks stream)
    rw [chunks_flatten] at hwritten
    rw [h.finished hpc, Option.some.injEq, List.append_right_inj, hwritten]

/-- The steps of the program for a stream of one chunk. -/
def sevenSteps : List Event := List.replicate 7 .run

theorem log_is_stream_line : ∃ s, run (step ['l']) (init noFiles [97, 10]) sevenSteps = .ok s ∧
    s.fs.read ['l'] = some [97, 10] :=
  ⟨_, rfl, ((log_is_stream ['l'] noFiles [97, 10] sevenSteps (by simp [sevenSteps]) _ rfl).2 rfl).mpr (by decide)⟩

/-- Of a line with a NUL in it, the log gets what is in front of the NUL. -/
theorem log_cut_at_nul : ∃ s, run (step ['l']) (init noFiles [97, 0, 98, 10]) sevenSteps = .ok s ∧ s.pc = .done ∧
    s.fs.read ['l'] = some [97] ∧
    ¬ ∀ (f : Path) (fs : Fs) (stream : List Byte) (es : List Event), (∀ e ∈ es, e ≠ .hup) → ∀ s : State,
      run (step f) (init fs stream) es = .ok s → s.pc = .done → s.fs.read f = some ((fs.read f).getD [] ++ stream) := by
  refine ⟨_, rfl, rfl, by decide, fun h => ?_⟩
  have hread := h ['l'] noFiles [97, 0, 98, 10] sevenSteps (by simp [sevenSteps]) _ rfl rfl
  exact absurd hread (by decide)

end Logger
end OsLabs
