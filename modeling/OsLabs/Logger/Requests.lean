/-
# The requests of the signals

A `SIGHUP` sets `NEED_ROTATE`, and `main` sets it back when it has rotated and opened the log again, whatever has come since
the log was renamed. A signal that comes there asks for nothing: the chunks go to the new log until the next one comes.
Everywhere else the log is renamed before a second chunk has been written.

Key definitions: `Honoured`, `Owes`, `Ends`.
Key theorem: `requests_honoured`.
-/
import OsLabs.Logger.Collect

namespace OsLabs
namespace Logger

open Run

/-- How many chunks have been written. -/
def State.written (s : State) : ℕ := s.track.flatten.length

/-- The step in which the current log is renamed. -/
def Renames (s : State) (e : Event) : Prop := e = .run ∧ ∃ nxt buff, s.pc = .shift 0 nxt buff

/-- The log has been renamed, and `NEED_ROTATE` has not been set back. -/
def PC.renamed : PC → Bool
  | .close _ | .reopen _ | .clear _ => true
  | _ => false

/-- After a signal in this state, and as long as the log is not renamed, at most one more chunk is written. -/
def Honoured (f : Path) (s : State) : Prop :=
  Sat (fun s' => ∀ es, Along (step f) (fun s e => ¬ Renames s e) s' es →
      Sat (fun s'' => s''.written ≤ s'.written + 1) (fun _ => True) (run (step f) s' es))
    (fun _ => True) (step f s .hup)

/-! ### A request that is kept -/

/-- Until the log is renamed, `NEED_ROTATE` stays set; `n` chunks had been written when the signal came, and one may have come
since. -/
def Owes (n : ℕ) (s : State) : Prop :=
  match s.pc with
  | .start | .close _ | .reopen _ | .clear _ => False
  | .opening | .puts _ => s.needRotate = true ∧ s.written ≤ n
  | .reading | .check _ | .shift _ _ _ => s.needRotate = true ∧ s.written ≤ n + 1
  | .closing | .done | .killed => s.written ≤ n + 1

/-- The stream has come to its end: the chunk that is there is the last one. -/
def Ends (n : ℕ) (s : State) : Prop :=
  match s.pc with
  | .close _ | .reopen _ | .clear _ | .puts _ => s.input = [] ∧ s.written ≤ n
  | .reading | .closing | .done => s.input = [] ∧ s.written ≤ n + 1
  | _ => False

section

variable {f : Path} {n : ℕ} {s s' : State} {e : Event} {b : List Byte}

theorem record_flatten_length (htrack : s.track ≠ []) (b : List Byte) :
    (record b s.track).flatten.length = s.track.flatten.length + 1 := by
  cases htr : s.track with
  | nil => exact absurd htr htrack
  | cons seg segs => simp [record]; omega

theorem record_ne_nil (htrack : s.track ≠ []) (b : List Byte) : record b s.track ≠ [] := fun hnil => by
  have hlen := record_flatten_length htrack b
  rw [hnil] at hlen
  exact Nat.succ_ne_zero _ hlen.symm

theorem record_flatten_le (track : List (List (List Byte))) (b : List Byte) :
    (record b track).flatten.length ≤ track.flatten.length + 1 := by
  cases track with
  | nil => exact Nat.zero_le _
  | cons seg segs => simp [record]; omega

theorem Owes.le (h : Owes n s) : s.written ≤ n + 1 := by
  unfold Owes at h
  split at h
  all_goals first
    | exact h.elim
    | exact h.2.trans (Nat.le_succ n)
    | exact h.2
    | exact h

theorem Ends.le (h : Ends n s) : s.written ≤ n + 1 := by
  unfold Ends at h
  split at h
  all_goals first
    | exact h.elim
    | exact h.2.trans (Nat.le_succ n)
    | exact h.2

/-- A signal or a flush. -/
theorem Owes.interrupt (h : Owes n s) (he : e ≠ .run) : Sat (Owes n) (fun _ => True) (step f s e) := by
  cases e with
  | run => exact absurd rfl he
  | hup =>
    cases hpc : s.pc <;> simp only [step, Owes, hpc] at h ⊢
    all_goals first
      | exact h.elim
      | trivial
      | exact ⟨rfl, h.2⟩
  | flush k =>
    cases hpc : s.pc <;> simp only [step, Owes, hpc] at h ⊢
    all_goals first
      | exact h.elim
      | trivial

theorem Owes.run (h : Owes n s) (he : ¬ Renames s .run) : Sat (Owes n) (fun _ => True) (runStep f s) := by
  cases hpc : s.pc with
  | opening =>
    simp only [Owes, hpc] at h
    simp only [runStep, hpc]
    exact ⟨h.1, h.2.trans (Nat.le_succ n)⟩
  | reading =>
    simp only [Owes, hpc] at h
    simp only [runStep, hpc]
    split_ifs
    · exact h.2
    · exact h
  | check b =>
    simp only [Owes, hpc] at h
    simp only [runStep, hpc, if_pos h.1]
    split_ifs
    · trivial
    · exact h
  | shift i nxt b =>
    have hi : i ≠ 0 := fun hi => he ⟨rfl, nxt, b, hi ▸ hpc⟩
    simp only [Owes, hpc] at h
    simp only [runStep, hpc, if_neg hi]
    exact h
  | puts b =>
    simp only [Owes, hpc] at h
    simp only [runStep, hpc]
    exact ⟨h.1, (record_flatten_le s.track b).trans (Nat.succ_le_succ h.2)⟩
  | closing =>
    simp only [Owes, hpc] at h
    simp only [runStep, hpc]
    exact h
  | done | killed =>
    simp only [runStep, hpc]
    trivial
  | start | close b | reopen b | clear b =>
    simp only [Owes, hpc] at h

theorem Ends.step (h : Ends n s) : Sat (Ends n) (fun _ => True) (Logger.step f s e) := by
  cases e with
  | run =>
    cases hpc : s.pc <;> simp only [Logger.step, runStep, Ends, hpc] at h ⊢
    case reading =>
      rw [if_pos h.1]
      exact h
    case puts b => exact ⟨h.1, (record_flatten_le s.track b).trans (Nat.succ_le_succ h.2)⟩
    all_goals first
      | exact h
      | trivial
  | hup | flush k =>
    cases hpc : s.pc <;> simp only [Logger.step, Ends, hpc] at h ⊢
    all_goals trivial

/-! ### A request that is lost -/

/-- The steps from `s` to `s'` write two chunks and do not rename the log. -/
structure Loses (f : Path) (n : ℕ) (s : State) (es : List Event) : Prop where
  along : Along (Logger.step f) (fun s e => ¬ Renames s e) s es
  written : Sat (fun s' => n + 1 < s'.written) (fun _ => False) (Run.run (Logger.step f) s es)

theorem Loses.cons {es : List Event} (hs : Logger.step f s .run = .ok s') (hpc : ∀ nxt b, s.pc ≠ .shift 0 nxt b)
    (h : Loses f n s' es) : Loses f n s (.run :: es) where
  along := (along_cons_ok hs).mpr ⟨fun ⟨_, nxt, b, hp⟩ => hpc nxt b hp, h.along⟩
  written := by
    rw [run_cons_ok es hs]
    exact h.written

theorem loses_puts (hpc : s.pc = .puts b) (htrack : s.track ≠ []) (hn : n < s.written) : Loses f n s [.run] := by
  have hs : Logger.step f s .run = .ok { s with buf := s.buf ++ cstring b, track := record b s.track, pc := .reading } := by
    simp only [Logger.step, runStep, hpc]
  refine Loses.cons hs (by simp [hpc]) ⟨trivial, ?_⟩
  have hrecord := record_flatten_length htrack b
  show n + 1 < (record b s.track).flatten.length
  unfold State.written at hn
  omega

/-- From where `NEED_ROTATE` is set back: the chunk that is there, and the next one. -/
theorem loses_clear (hpc : s.pc = .clear b) (htrack : s.track ≠ []) (hinput : s.input ≠ []) (hn : n ≤ s.written) :
    Loses f n s (List.replicate 5 .run) := by
  have hrecord := record_flatten_length htrack b
  have htrack' := record_ne_nil htrack b
  let s₁ : State := { s with needRotate := false, pc := .puts b }
  let s₂ : State := { s₁ with buf := s.buf ++ cstring b, track := record b s.track, pc := .reading }
  let s₃ : State := { s₂ with input := (fgets ROOM s.input).2, pc := .check (fgets ROOM s.input).1 }
  have hclear : Logger.step f s .run = .ok s₁ := by simp only [Logger.step, runStep, hpc, s₁]
  have hputs : Logger.step f s₁ .run = .ok s₂ := rfl
  have hread : Logger.step f s₂ .run = .ok s₃ := if_neg hinput
  have hcheck : Logger.step f s₃ .run = .ok { s₃ with pc := .puts (fgets ROOM s.input).1 } := rfl
  have hlast : Loses f n { s₃ with pc := .puts (fgets ROOM s.input).1 } [.run] := by
    apply loses_puts rfl htrack'
    show n < (record b s.track).flatten.length
    unfold State.written at hn
    omega
  exact .cons hclear (by simp [hpc]) (.cons hputs (by simp [s₁]) (.cons hread (by simp [s₂]) (.cons hcheck (by simp) hlast)))

theorem loses_reopen (hpc : s.pc = .reopen b) (hinput : s.input ≠ []) (hn : n ≤ s.written) :
    Loses f n s (List.replicate 6 .run) := by
  have hs : Logger.step f s .run = .ok { s with
      fs := (s.fs.fopen f).1, log := (s.fs.fopen f).2, track := [] :: s.track, pc := .clear b } := by
    simp only [Logger.step, runStep, hpc]
  exact Loses.cons hs (by simp [hpc]) (loses_clear rfl (List.cons_ne_nil _ _) hinput hn)

theorem loses_close (hpc : s.pc = .close b) (hinput : s.input ≠ []) (hn : n ≤ s.written) :
    Loses f n s (List.replicate 7 .run) := by
  have hs : Logger.step f s .run = .ok { s with fs := s.fs.append s.log s.buf, buf := [], pc := .reopen b } := by
    simp only [Logger.step, runStep, hpc]
  exact Loses.cons hs (by simp [hpc]) (loses_reopen rfl hinput hn)

theorem Loses.not_honoured {es : List Event} (hs : Logger.step f s .hup = .ok s') (h : Loses f s'.written s' es) :
    ¬ Honoured f s := by
  intro hon
  rw [Honoured, hs] at hon
  have hle := hon es h.along
  have hlt := h.written
  cases hrun : Run.run (Logger.step f) s' es with
  | ok s'' =>
    rw [hrun] at hle hlt
    exact absurd hlt (Nat.not_lt.mpr hle)
  | error x =>
    rw [hrun] at hlt
    exact hlt

/-! ### Every delivery -/

theorem Owes.honoured (h : Sat (fun s' => Owes s'.written s') (fun _ => True) (Logger.step f s .hup)) : Honoured f s := by
  refine h.mono (fun s' hs' es hes => ?_) fun _ => id
  refine (run_sat (fun s e hI he => ?_) es hs' hes).mono (fun _ => Owes.le) fun _ => id
  cases e with
  | run => exact hI.run he
  | hup => exact hI.interrupt (by simp)
  | flush k => exact hI.interrupt (by simp)

theorem Ends.honoured (h : Sat (fun s' => Ends s'.written s') (fun _ => True) (Logger.step f s .hup)) : Honoured f s := by
  refine h.mono (fun s' hs' es hes => ?_) fun _ => id
  exact (run_sat (fun s e hI _ => hI.step) es hs' hes).mono (fun _ => Ends.le) fun _ => id

/-- A request is lost exactly between the `rename` of the log and the end of its `if`, if there is a chunk to come. -/
theorem honoured_iff (htrack : s.track ≠ []) : Honoured f s ↔ ¬ (s.pc.renamed = true ∧ s.input ≠ []) := by
  constructor
  · rintro hon ⟨hpc, hinput⟩
    have hstep : ∀ pc, s.pc = pc → pc.renamed = true → Logger.step f s .hup = .ok { s with needRotate := true } := by
      intro pc hp hr
      cases pc <;> first
        | exact absurd hr Bool.false_ne_true
        | simp only [Logger.step, hp]
    have hs := hstep _ rfl hpc
    cases hp : s.pc with
    | close b => exact Loses.not_honoured hs (loses_close hp hinput le_rfl) hon
    | reopen b => exact Loses.not_honoured hs (loses_reopen hp hinput le_rfl) hon
    | clear b => exact Loses.not_honoured hs (loses_clear hp htrack hinput le_rfl) hon
    | _ =>
      rw [hp] at hpc
      exact absurd hpc Bool.false_ne_true
  · intro h
    by_cases hr : s.pc.renamed = true
    · have hinput : s.input = [] := by
        by_contra hn
        exact h ⟨hr, hn⟩
      apply Ends.honoured
      cases hp : s.pc <;> rw [hp] at hr <;> first
        | exact absurd hr Bool.false_ne_true
        | (simp only [Logger.step, hp]; exact ⟨hinput, le_rfl⟩)
    · apply Owes.honoured
      cases hp : s.pc <;> rw [hp] at hr <;> simp only [Logger.step, hp] <;> first
        | trivial
        | exact absurd rfl hr
        | exact ⟨rfl, le_rfl⟩
        | exact ⟨rfl, Nat.le_succ _⟩
        | exact Nat.le_succ _

theorem step_track (htrack : s.track ≠ []) (e : Event) : Sat (fun s' => s'.track ≠ []) (fun _ => True) (Logger.step f s e) := by
  cases e with
  | run =>
    cases hpc : s.pc <;> simp only [Logger.step, runStep, hpc] <;> try split_ifs
    case puts b => exact record_ne_nil htrack b
    case reopen b => exact List.cons_ne_nil _ _
    all_goals first
      | exact htrack
      | trivial
  | hup | flush k =>
    cases hpc : s.pc <;> simp only [Logger.step, hpc] <;> first
      | exact htrack
      | trivial

/-- **Requests.** Whatever the stream, the files, and the places of signals and flushes: in a run every signal is honoured if
and only if none comes after the `rename` of the log and before `NEED_ROTATE` is set back, save where there is no chunk to
come. -/
theorem requests_honoured (f : Path) (fs : Fs) (stream : List Byte) (es : List Event) :
    Along (Logger.step f) (fun s e => e = .hup → Honoured f s) (init fs stream) es ↔
      Along (Logger.step f) (fun s e => e = .hup → ¬ (s.pc.renamed = true ∧ s.input ≠ [])) (init fs stream) es := by
  refine along_iff (I := fun s => s.track ≠ []) (fun s e s' htrack _ _ hs => ?_) (fun s e htrack _ => ?_) es
    (List.cons_ne_nil _ _) (along_true es _)
  · have hnext := @step_track f s htrack e
    rwa [hs] at hnext
  · exact forall_congr' fun _ => honoured_iff htrack

end

/-- The first signal has the log rotated, and the second one comes when the log has been renamed. -/
def twoSignals : List Event := [.run, .run, .hup, .run, .run, .run, .hup]

theorem request_lost : ¬ Along (Logger.step ['l']) (fun s e => e = .hup → Honoured ['l'] s)
    (init noFiles [97, 10, 98, 10]) twoSignals := by
  intro h
  have hlast := h.2.2.2.2.2.2.1 rfl
  exact (honoured_iff (by decide)).mp hlast ⟨rfl, by decide⟩

end Logger
end OsLabs
