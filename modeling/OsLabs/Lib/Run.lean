/-
# Runs of a machine whose steps can fail

A machine is a function `step : σ → ε → Except E σ`: an event either leads
to the next state or fails. Every choice of the environment (a scheduler, an
allocator, a user program) is in the event, so a run is determined by its
list of events, and a property of every run is a property of every list.

`run_sat` is the invariant rule: what every event that the environment may
send preserves holds at the end of every run, and the run fails only as its
steps may. `trace_sim` is the simulation rule: a machine that follows
another one event by event makes the same observations.
-/
import Mathlib

namespace OsLabs
namespace Run

variable {σ ε E ω τ : Type*}

/-- What a step or a run may end in: a state that satisfies `I`, or a failure
that satisfies `Q`. -/
def Sat (I : σ → Prop) (Q : E → Prop) : Except E σ → Prop
  | .ok s => I s
  | .error x => Q x

theorem Sat.mono {I I' : σ → Prop} {Q Q' : E → Prop} (hI : ∀ s, I s → I' s) (hQ : ∀ x, Q x → Q' x) :
    ∀ {r : Except E σ}, Sat I Q r → Sat I' Q' r
  | .ok s, h => hI s h
  | .error x, h => hQ x h

/-- What a step or a run failed with. -/
def failure : Except E σ → Option E
  | .ok _ => none
  | .error x => some x

theorem Sat.of_failure {I : σ → Prop} {Q : E → Prop} {x : E} : ∀ {r : Except E σ}, Sat I Q r → failure r = some x → Q x
  | .error _, h, hx => Option.some.inj hx ▸ h

theorem Sat.of_map {I : σ → Prop} {Q : E → Prop} {f : σ → ω} {y : ω} :
    ∀ {r : Except E σ}, Sat I Q r → r.toOption.map f = some y → ∃ s, I s ∧ f s = y
  | .ok s, h, hy => ⟨s, h, Option.some.inj hy⟩

/-- The run over the events `es`; it stops at the first failure. -/
def run (step : σ → ε → Except E σ) : σ → List ε → Except E σ
  | s, [] => .ok s
  | s, e :: es =>
    match step s e with
    | .ok s' => run step s' es
    | .error x => .error x

/-- Every event of the run meets `P` in the state in which it comes. -/
def Along (step : σ → ε → Except E σ) (P : σ → ε → Prop) : σ → List ε → Prop
  | _, [] => True
  | s, e :: es => P s e ∧ Sat (fun s' => Along step P s' es) (fun _ => True) (step s e)

/-- The observations a run makes: one in each state it goes through. -/
def trace (step : σ → ε → Except E σ) (obs : σ → ω) : σ → List ε → Except E (List ω)
  | s, [] => .ok [obs s]
  | s, e :: es =>
    match step s e with
    | .ok s' => (trace step obs s' es).map (obs s :: ·)
    | .error x => .error x

instance decSat {I : σ → Prop} {Q : E → Prop} [DecidablePred I] [DecidablePred Q] :
    DecidablePred (Sat I Q)
  | .ok s => inferInstanceAs (Decidable (I s))
  | .error x => inferInstanceAs (Decidable (Q x))

instance decAlong {step : σ → ε → Except E σ} {P : σ → ε → Prop} [∀ s e, Decidable (P s e)] :
    ∀ s es, Decidable (Along step P s es)
  | _, [] => inferInstanceAs (Decidable True)
  | s, e :: es =>
    have : DecidablePred fun s' => Along step P s' es := fun s' => decAlong s' es
    inferInstanceAs (Decidable (P s e ∧ Sat (fun s' => Along step P s' es) (fun _ => True) (step s e)))

section

variable {step : σ → ε → Except E σ} {P : σ → ε → Prop}

@[simp] theorem run_nil (s : σ) : run step s ([] : List ε) = .ok s := rfl

theorem run_cons_ok {s s' : σ} {e : ε} (es : List ε) (h : step s e = .ok s') :
    run step s (e :: es) = run step s' es := by simp [run, h]

theorem run_cons_error {s : σ} {e : ε} {x : E} (es : List ε) (h : step s e = .error x) :
    run step s (e :: es) = .error x := by simp [run, h]

theorem along_cons_ok {s s' : σ} {e : ε} {es : List ε} (h : step s e = .ok s') :
    Along step P s (e :: es) ↔ P s e ∧ Along step P s' es := by simp [Along, h, Sat]

/-- A run goes through the state its first part ends in. -/
theorem run_append : ∀ (es fs : List ε) {s s' : σ}, run step s es = .ok s' →
    run step s (es ++ fs) = run step s' fs
  | [], _, s, s', h => by cases h; rfl
  | e :: es, fs, s, s', h => by
    cases hs : step s e with
    | ok s₁ =>
      rw [run_cons_ok es hs] at h
      rw [List.cons_append, run_cons_ok _ hs, run_append es fs h]
    | error x => rw [run_cons_error es hs] at h; cases h

/-- **The invariant rule.** If every event that meets `P` takes a state of
`I` to a state of `I` or fails within `Q`, so does every run along `P`. -/
theorem run_sat {I : σ → Prop} {Q : E → Prop} (hstep : ∀ s e, I s → P s e → Sat I Q (step s e)) :
    ∀ (es : List ε) {s : σ}, I s → Along step P s es → Sat I Q (run step s es)
  | [], _, hI, _ => hI
  | e :: es, s, hI, hP => by
    have h1 := hstep s e hI hP.1
    cases hs : step s e with
    | ok s' =>
      rw [hs] at h1
      rw [along_cons_ok hs] at hP
      rw [run_cons_ok es hs]
      exact run_sat hstep es h1 hP.2
    | error x =>
      rw [hs] at h1
      rw [run_cons_error es hs]
      exact h1

/-- The invariant rule for the state a run ends in. -/
theorem run_inv {I : σ → Prop} (hstep : ∀ s e s', I s → P s e → step s e = .ok s' → I s')
    (es : List ε) {s s' : σ} (hI : I s) (hP : Along step P s es) (h : run step s es = .ok s') : I s' := by
  have hsat : ∀ s e, I s → P s e → Sat I (fun _ => True) (step s e) := fun s e hI hP => by
    cases hs : step s e with
    | ok s' => exact hstep s e s' hI hP hs
    | error x => trivial
  have hrun := run_sat hsat es hI hP
  rw [h] at hrun
  exact hrun

/-- The rule for a measure that the events of `c` lower, each by one, and the others leave. -/
theorem run_counted {I : ℕ → σ → Prop} {Q : E → Prop} {c : ε → Bool}
    (hcount : ∀ n s e, c e = true → I (n + 1) s → Sat (I n) Q (step s e))
    (hother : ∀ n s e, c e = false → I n s → Sat (I n) Q (step s e)) :
    ∀ (es : List ε) {s : σ}, I (es.countP c) s → Sat (I 0) Q (run step s es)
  | [], _, hI => hI
  | e :: es, s, hI => by
    have hnext : Sat (I (es.countP c)) Q (step s e) := by
      cases hc : c e with
      | true =>
        rw [List.countP_cons_of_pos hc] at hI
        exact hcount _ s e hc hI
      | false =>
        rw [List.countP_cons_of_neg (by simp [hc])] at hI
        exact hother _ s e hc hI
    cases hs : step s e with
    | ok s' =>
      rw [hs] at hnext
      rw [run_cons_ok es hs]
      exact run_counted hcount hother es hnext
    | error x =>
      rw [hs] at hnext
      rw [run_cons_error es hs]
      exact hnext

theorem along_mono {P' : σ → ε → Prop} (h : ∀ s e, P s e → P' s e) :
    ∀ (es : List ε) {s : σ}, Along step P s es → Along step P' s es
  | [], _, _ => trivial
  | e :: es, s, hP => by
    refine ⟨h s e hP.1, ?_⟩
    have h2 := hP.2
    cases hs : step s e with
    | ok s' => rw [hs] at h2; exact along_mono h es h2
    | error x => trivial

theorem along_and {P' : σ → ε → Prop} : ∀ {es : List ε} {s : σ}, Along step P s es → Along step P' s es →
    Along step (fun s e => P s e ∧ P' s e) s es
  | [], _, _, _ => trivial
  | e :: es, s, hP, hP' => by
    refine ⟨⟨hP.1, hP'.1⟩, ?_⟩
    have h2 := hP.2
    have h2' := hP'.2
    cases hs : step s e with
    | ok s' =>
      rw [hs] at h2 h2'
      exact along_and h2 h2'
    | error x => trivial

theorem along_concat {e : ε} : ∀ {es : List ε} {s s' : σ}, Along step P s es → run step s es = .ok s' → P s' e →
    Along step P s (es ++ [e])
  | [], s, s', _, h, he => by
    obtain rfl := Except.ok.inj h
    refine ⟨he, ?_⟩
    cases step s e with
    | ok s' => trivial
    | error x => trivial
  | f :: es, s, s', hP, h, he => by
    cases hs : step s f with
    | error x =>
      rw [run_cons_error es hs] at h
      cases h
    | ok s₁ =>
      rw [run_cons_ok es hs] at h
      rw [along_cons_ok hs] at hP
      rw [List.cons_append, along_cons_ok hs]
      exact ⟨hP.1, along_concat hP.2 h he⟩

theorem along_true : ∀ (es : List ε) (s : σ), Along step (fun _ _ => True) s es
  | [], _ => trivial
  | e :: es, s => by
    refine ⟨trivial, ?_⟩
    cases hs : step s e with
    | ok s' => exact along_true es s'
    | error x => trivial

/-- What is asked of the events alone. -/
theorem along_of_mem {R : ε → Prop} : ∀ {es : List ε} {s : σ}, (∀ e ∈ es, R e) → Along step (fun _ e => R e) s es
  | [], _, _ => trivial
  | e :: es, s, h => by
    refine ⟨h e (List.mem_cons_self ..), ?_⟩
    cases hs : step s e with
    | ok s' => exact along_of_mem fun e' he' => h e' (List.mem_cons_of_mem _ he')
    | error x => trivial

/-- If the events of `R` cannot fail, the run goes on to its last one. -/
theorem along_events_iff {R : ε → Prop} (hok : ∀ s e, R e → ∃ s', step s e = .ok s') : ∀ {es : List ε} {s : σ},
    Along step (fun _ e => R e) s es ↔ ∀ e ∈ es, R e
  | [], s => iff_of_true trivial fun e he => absurd he List.not_mem_nil
  | e :: es, s => by
    refine ⟨fun h => ?_, along_of_mem⟩
    obtain ⟨s', hs⟩ := hok s e h.1
    have hrest := along_events_iff hok (s := s').mp ((along_cons_ok hs).mp h).2
    intro e' he'
    rcases List.mem_cons.mp he' with rfl | hmem
    · exact h.1
    · exact hrest e' hmem

/-- The invariant rule for what is asked of every event: an invariant that the
events of `P` keep carries `Q` along the run. -/
theorem along_inv {Q : σ → ε → Prop} {I : σ → Prop}
    (hstep : ∀ s e, I s → P s e → Q s e ∧ Sat I (fun _ => True) (step s e)) :
    ∀ (es : List ε) {s : σ}, I s → Along step P s es → Along step Q s es
  | [], _, _, _ => trivial
  | e :: es, s, hI, hP => by
    obtain ⟨hQ, hnext⟩ := hstep s e hI hP.1
    refine ⟨hQ, ?_⟩
    have hrest := hP.2
    cases hs : step s e with
    | ok s' =>
      rw [hs] at hnext hrest
      exact along_inv hstep es hnext hrest
    | error x => trivial

/-- Along runs that meet `F` and keep `I`, two conditions that agree in every
state of `I` are met by the same runs. -/
theorem along_iff {F Q : σ → ε → Prop} {I : σ → Prop}
    (hkeep : ∀ s e s', I s → F s e → P s e → step s e = .ok s' → I s')
    (hiff : ∀ s e, I s → F s e → (P s e ↔ Q s e)) :
    ∀ (es : List ε) {s : σ}, I s → Along step F s es → (Along step P s es ↔ Along step Q s es)
  | [], _, _, _ => Iff.rfl
  | e :: es, s, hI, hF => by
    have hPQ := hiff s e hI hF.1
    cases hs : step s e with
    | ok s' =>
      rw [along_cons_ok hs] at hF ⊢
      rw [along_cons_ok hs, ← hPQ]
      constructor
      · rintro ⟨hP, h⟩
        exact ⟨hP, (along_iff hkeep hiff es (hkeep s e s' hI hF.1 hP hs) hF.2).mp h⟩
      · rintro ⟨hP, h⟩
        exact ⟨hP, (along_iff hkeep hiff es (hkeep s e s' hI hF.1 hP hs) hF.2).mpr h⟩
    | error x => simp only [Along, hs, Sat, hPQ]

/-- **The simulation rule.** If the machine follows `next` event by event
while the two states stay related, and related states look alike, every run
along `P` makes the observations of `next`'s run. -/
theorem trace_sim {R : σ → τ → Prop} {next : τ → ε → τ} {obs : σ → ω} {obs' : τ → ω}
    (hobs : ∀ s q, R s q → obs s = obs' q)
    (hstep : ∀ s q e, R s q → P s e → ∃ s', step s e = .ok s' ∧ R s' (next q e)) :
    ∀ (es : List ε) {s : σ} {q : τ}, R s q → Along step P s es →
      trace step obs s es = .ok ((es.scanl next q).map obs')
  | [], s, q, hR, _ => by simp [trace, hobs s q hR]
  | e :: es, s, q, hR, hP => by
    obtain ⟨s', hs, hR'⟩ := hstep s q e hR hP.1
    rw [along_cons_ok hs] at hP
    have ih := trace_sim hobs hstep es hR' hP.2
    simp [trace, hs, ih, Except.map, hobs s q hR]

end

end Run
end OsLabs
